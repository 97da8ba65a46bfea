import Glendum.Kernel.PageRun
import Glendum.Lib.Trace

/-!
# Glendum — a process that waits for a page

`newpage` of a user process that passes no segment, over any order of steps. The
process locks `palloc`, finds enough free pages or not, and in the second case
sleeps in `tsleep` until a page is given back or a second has passed; between its
steps the other processes make their calls of the page layer (`Waiter.step`).

`ispages`, on which it sleeps, asks for `freecount >= highwater`; the loop goes on
until `freecount > highwater`.

* `newpage_taken`, `newpage_again` — what the locked part of the loop does, from
  any state of the allocator;
* `newpage_wait_exact` — a process that leaves `tsleep` with `ispages` true, and
  before whose next lock no page is taken, gets its page exactly when the counter
  is not at the high-water mark itself; there it goes round with everything as it
  was, and `ispages` still true;
* `newpage_spins` — a run that comes there, in a pool of 20 pages.
-/

namespace Glendum

open Machine Trace

/-! ## The process and its steps -/

/-- `ispages`, the condition that the process sleeps on. -/
def Palloc.ispages (k : Palloc) : Bool := decide (k.freecount ≥ k.highwater)

/-- Where the process stands: before `lock(&palloc)`, between the two locks, or
behind the loop with its page. -/
inductive WaitPc
  | unlocked
  | asleep
  | done (p : PageId)
deriving DecidableEq

/-- The allocator with the references of all processes, and the process. `due` is
set when `ispages` was true as the process left `tsleep`, and no page has been taken
since. -/
structure Waiter where
  k    : Palloc
  held : PageId → Nat
  pc   : WaitPc := .unlocked
  due  : Bool := false

inductive WaitOp
  /-- the process locks `palloc` and goes on until it has unlocked it -/
  | lock
  /-- the process comes out of `tsleep`, woken or after its second -/
  | leave
  /-- another process makes a call of the page layer -/
  | other (op : PageOp)

namespace Waiter

/-- The call of the process: `up->kp` is 0, and `s` is nil. -/
def call (clear : Bool) (va : Word) : PageOp := .newpage false clear false va

def step (P : Port) (clear : Bool) (va : Word) (w : Waiter) : WaitOp → Option Waiter
  | .lock =>
    if w.pc ≠ .unlocked then none else
    -- what `newpage` does between its `lock` and its `unlock`
    match w.k.newpage P false clear false va with
    | .ok (.page p, k) =>
      some { k, held := heldAfter w.held (call clear va) (.page p), pc := .done p, due := false }
    | .ok (.asleep, k) => some { w with k, pc := .asleep, due := false }
    | _ => none
  | .leave =>
    if w.pc ≠ .asleep then none else
    -- the sleep may be over with no page there
    some { w with pc := .unlocked, due := w.k.ispages }
  | .other op =>
    match w.k.step P op with
    | .error _ => none
    -- a call that leaves fewer pages has taken the one that was due
    | .ok (r, k) =>
      some { w with
        k
        held := heldAfter w.held op r
        due := w.due && decide (w.k.freecount ≤ k.freecount) }

/-- The other processes keep to the rules of the page layer. -/
def OthersLegal (w : Waiter) : WaitOp → Prop
  | .other op => Legal w.k w.held op
  | _ => True

/-- The process locks `palloc` with its page due. -/
def Relocks (w : Waiter) (o : WaitOp) : Prop := o = .lock ∧ w.due = true

/-- With its page due, the process leaves the loop and has a page. -/
def Served (P : Port) (clear : Bool) (va : Word) (w : Waiter) (o : WaitOp) : Prop :=
  w.Relocks o → ∃ p w', w.step P clear va o = some w' ∧ w'.pc = .done p

/-- The counter is not at the high-water mark. -/
def OffMark (w : Waiter) (o : WaitOp) : Prop :=
  w.Relocks o → w.k.freecount ≠ w.k.highwater

end Waiter

/-! ## The locked part -/

section

variable {P : Port} {k : Palloc} {m : CacheMap} {held : PageId → Nat} {clear : Bool} {va : Word}

/-- Above the high-water mark there is a page. -/
theorem newpage_taken (h : PageInv P k m held) (clear : Bool) (va : Word) (hAbove : k.highwater < k.freecount) :
    ∃ p k', k.newpage P false clear false va = .ok (.page p, k') ∧
      Keeps P k k' (m.dropPage p) (heldAfter held (Waiter.call clear va) (.page p)) := by
  obtain ⟨p, k', hRun, -, -, hKeeps⟩ := newpage_enough h false clear false va (Or.inl hAbove)
  exact ⟨p, k', hRun, hKeeps⟩

/-- At the high-water mark and below it nothing happens. -/
theorem newpage_again (hBelow : k.freecount ≤ k.highwater) :
    k.newpage P false clear false va = .ok (.asleep, k) :=
  newpage_short clear false va (by simp [hBelow])

end

/-! ## One step -/

/-- What holds between the steps: the invariants of the page layer, and while a page
is due, `ispages`. The loop compares with the mark that it read before it; no step
changes the mark. -/
structure WaitInv (P : Port) (mark : Nat) (w : Waiter) : Prop where
  pages : ∃ m, PageInv P w.k m w.held
  mark  : w.k.highwater = mark
  due   : w.due = true → w.k.highwater ≤ w.k.freecount

section

variable {P : Port} {clear : Bool} {va : Word} {mark : Nat} {w w' t : Waiter} {o : WaitOp}
  {os : List WaitOp}

/-- The process, before its lock, above the mark and at or below it. -/
theorem WaitInv.lock (h : WaitInv P mark w) (clear : Bool) (va : Word) (hPc : w.pc = .unlocked) :
    (w.k.highwater < w.k.freecount ∧ ∃ p w', w.step P clear va .lock = some w' ∧ w'.pc = .done p ∧
      WaitInv P mark w') ∨
    (w.k.freecount ≤ w.k.highwater ∧
      w.step P clear va .lock = some { w with pc := .asleep, due := false }) := by
  obtain ⟨m, hPages⟩ := h.pages
  rcases Nat.lt_or_ge w.k.highwater w.k.freecount with hAbove | hBelow
  · obtain ⟨p, k', hRun, hKeeps⟩ := newpage_taken hPages clear va hAbove
    let w' : Waiter :=
      { k := k', held := heldAfter w.held (Waiter.call clear va) (.page p), pc := .done p, due := false }
    have hStep : w.step P clear va .lock = some w' := by
      simp only [Waiter.step, hPc, ne_eq, not_true_eq_false, if_false, hRun, w']
    exact Or.inl ⟨hAbove, p, w', hStep, rfl, ⟨_, hKeeps.inv⟩, hKeeps.highwater.trans h.mark, nofun⟩
  · refine Or.inr ⟨hBelow, ?_⟩
    simp only [Waiter.step, hPc, ne_eq, not_true_eq_false, if_false, newpage_again hBelow]

/-- Every step keeps the invariants. -/
theorem WaitInv.step (h : WaitInv P mark w) (hLegal : w.OthersLegal o)
    (hStep : w.step P clear va o = some w') : WaitInv P mark w' := by
  cases o with
  | lock =>
    have hPc : w.pc = .unlocked := by
      by_contra hNot
      simp [Waiter.step, hNot] at hStep
    -- either way the page is no longer due
    rcases h.lock clear va hPc with ⟨-, p, w1, hTake, -, hNext⟩ | ⟨-, hSleep⟩
    · obtain rfl : w1 = w' := Option.some.inj (hTake.symm.trans hStep)
      exact hNext
    · obtain rfl := Option.some.inj (hSleep.symm.trans hStep)
      exact ⟨h.pages, h.mark, nofun⟩
  | leave =>
    simp only [Waiter.step, Option.ite_none_left_eq_some, Option.some.injEq] at hStep
    obtain ⟨-, rfl⟩ := hStep
    refine ⟨h.pages, h.mark, fun hDue => ?_⟩
    exact of_decide_eq_true hDue
  | other op =>
    obtain ⟨m, hPages⟩ := h.pages
    -- a call that fails is no step
    rcases step_inv hPages op hLegal with ⟨r, k', m', hCall, -, hKeeps⟩ | hPanic | ⟨-, hNil⟩
    · simp only [Waiter.step, hCall, Option.some.injEq] at hStep
      subst hStep
      refine ⟨⟨m', hKeeps.inv⟩, hKeeps.highwater.trans h.mark, fun hDue => ?_⟩
      -- the page is still due, so that the call took none
      obtain ⟨hWas, hMore⟩ := Bool.and_eq_true_iff.mp hDue
      have hBefore := h.due hWas
      have hAfter : w.k.freecount ≤ k'.freecount := of_decide_eq_true hMore
      change k'.highwater ≤ k'.freecount
      rw [hKeeps.highwater]
      exact hBefore.trans hAfter
    · simp [Waiter.step, hPanic] at hStep
    · simp [Waiter.step, hNil] at hStep

/-- With a page due, the lock finds the counter above the mark or at it. -/
theorem WaitInv.served_iff (h : WaitInv P mark w) (hStep : w.step P clear va o = some w') :
    w.Served P clear va o ↔ w.OffMark o := by
  refine forall_congr' fun hRelocks => ?_
  obtain ⟨rfl, hDue⟩ := hRelocks
  have hPc : w.pc = .unlocked := by
    by_contra hNot
    simp [Waiter.step, hNot] at hStep
  have hMark := h.due hDue
  rcases h.lock clear va hPc with ⟨hAbove, p, w1, hTake, hDone, -⟩ | ⟨hBelow, hSleep⟩
  · exact iff_of_true ⟨p, w1, hTake, hDone⟩ hAbove.ne'
  -- at the mark: `ispages` has said yes, and the loop sleeps again
  · refine iff_of_false ?_ fun hOff => hOff (Nat.le_antisymm hBelow hMark)
    rintro ⟨p, w1, hTake, hDone⟩
    obtain rfl := Option.some.inj (hSleep.symm.trans hTake)
    cases hDone

/-! ## Runs -/

/-- A fresh caller of `newpage`, whatever the state of the allocator and its mark,
and any order of steps. Every lock with a page due ends the loop, if and only if no
such lock finds the counter at the mark; wherever one could come it gives the page
away from the mark, and at the mark the process goes round again, with nothing
changed and `ispages` true. -/
theorem newpage_wait_exact {m : CacheMap} (hStart : PageInv P w.k m w.held)
    (hFresh : w.due = false)
    (hLegal : Always (Waiter.step P clear va) Waiter.OthersLegal w os)
    (hRun : run (Waiter.step P clear va) w os = some t) :
    (Always (Waiter.step P clear va) (Waiter.Served P clear va) w os ↔
      Always (Waiter.step P clear va) Waiter.OffMark w os) ∧
    (t.pc = .unlocked → t.due = true →
      (t.k.freecount ≠ t.k.highwater →
        ∃ p t', t.step P clear va .lock = some t' ∧ t'.pc = .done p) ∧
      (t.k.freecount = t.k.highwater →
        t.step P clear va .lock = some { t with pc := .asleep, due := false } ∧
          t.k.ispages = true)) ∧
    t.k.highwater = w.k.highwater := by
  have hInv : WaitInv P w.k.highwater w := ⟨⟨m, hStart⟩, rfl, by simp [hFresh]⟩
  have hLast : WaitInv P w.k.highwater t :=
    run_invariant (fun _ _ _ hBefore hOthers hMove => hBefore.step hOthers hMove) hInv hLegal hRun
  refine ⟨?_, ?_, hLast.mark⟩
  -- the two conditions say the same of every lock, by what holds before it
  · exact always_iff_always_of (fun _ _ _ hBefore hOthers _ hMove => hBefore.step hOthers hMove)
      (fun _ _ _ hBefore _ hMove => hBefore.served_iff hMove) hInv hLegal hRun
  · intro hPc hDue
    have hMark := hLast.due hDue
    rcases hLast.lock clear va hPc with ⟨hAbove, p, t', hTake, hDone, -⟩ | ⟨hBelow, hSleep⟩
    · exact ⟨fun _ => ⟨p, t', hTake, hDone⟩, fun hEq => absurd hEq hAbove.ne'⟩
    · refine ⟨fun hOff => absurd (Nat.le_antisymm hBelow hMark) hOff, fun _ => ⟨hSleep, ?_⟩⟩
      exact decide_eq_true hMark

end

/-! ## A pool at its mark -/

/-- A process before a pool of 20 pages. -/
def twentyWaiter : Waiter where
  k := smallPool 20
  held _ := 0

/-- The others take 19 pages; the process finds the pool at its mark, sleeps, and
comes out of `tsleep`. -/
def atMark : List WaitOp := List.replicate 19 (.other takePage) ++ [.lock, .leave]

theorem atMark_run : ∃ t, run (Waiter.step smallPort false 0x5000) twentyWaiter atMark = some t ∧
    t.pc = .unlocked ∧ t.due = true ∧ t.k.freecount = 1 ∧ t.k.highwater = 1 := by
  have hFacts : (run (Waiter.step smallPort false 0x5000) twentyWaiter atMark).map
      (fun t => (t.pc, t.due, t.k.freecount, t.k.highwater)) = some (.unlocked, true, 1, 1) := by
    decide +kernel
  obtain ⟨t, hRun, hState⟩ := Option.map_eq_some_iff.mp hFacts
  simp only [Prod.mk.injEq] at hState
  exact ⟨t, hRun, hState⟩

theorem newpage_wait_exact_twenty : ∃ t,
    run (Waiter.step smallPort false 0x5000) twentyWaiter atMark = some t ∧
    t.step smallPort false 0x5000 .lock = some { t with pc := .asleep, due := false } := by
  obtain ⟨t, hRun, hPc, hDue, hFree, hMark⟩ := atMark_run
  have hInit : pageinit [{ base := 0x100000, npage := 20 }] (fun _ => 0) = .ok (smallPool 20) := rfl
  have hLegal : Always (Waiter.step smallPort false 0x5000) Waiter.OthersLegal twentyWaiter atMark := by
    refine always_of_forall fun o ho w => ?_
    rcases List.mem_append.mp ho with hTake | hOwn
    · rw [(List.mem_replicate.mp hTake).2]
      exact trivial
    · rcases List.mem_pair.mp hOwn with rfl | rfl <;> exact trivial
  obtain ⟨-, hEnd, -⟩ := newpage_wait_exact (P := smallPort) (pageinit_inv hInit).1 rfl hLegal hRun
  exact ⟨t, hRun, ((hEnd hPc hDue).2 (hFree.trans hMark.symm)).1⟩

/-- There the process goes round again though `ispages` is true, one page is free and
nobody has taken one. -/
theorem newpage_spins : ∃ t,
    run (Waiter.step smallPort false 0x5000) twentyWaiter atMark = some t ∧
    t.due = true ∧ t.k.ispages = true ∧ t.k.freecount = 1 ∧
    t.step smallPort false 0x5000 .lock = some { t with pc := .asleep, due := false } ∧
    ¬ Always (Waiter.step smallPort false 0x5000) (Waiter.Served smallPort false 0x5000)
      twentyWaiter (atMark ++ [.lock]) := by
  obtain ⟨t, hRun, hPc, hDue, hFree, hMark⟩ := atMark_run
  have hSleep : t.step smallPort false 0x5000 .lock = some { t with pc := .asleep, due := false } := by
    have hBelow : t.k.freecount ≤ t.k.highwater := by rw [hFree, hMark]
    simp only [Waiter.step, hPc, ne_eq, not_true_eq_false, if_false, newpage_again hBelow]
  refine ⟨t, hRun, hDue, decide_eq_true (by rw [hFree, hMark]), hFree, hSleep, fun hAlways => ?_⟩
  obtain ⟨p, t', hTake, hDone⟩ := hAlways.last hRun ⟨rfl, hDue⟩
  obtain rfl := Option.some.inj (hSleep.symm.trans hTake)
  cases hDone

end Glendum
