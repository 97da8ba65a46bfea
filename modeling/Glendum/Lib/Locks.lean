import Mathlib.Data.List.Nodup
import Mathlib.Data.Set.Basic
import Mathlib.Logic.Function.Basic
import Mathlib.Order.Bounds.Basic
import Mathlib.Tactic.Common

/-!
# Processes with locks

Any number of processes share a state and a family of locks. Each process is at a
place of its program; the next thing it does there is one operation on one lock,
and with that operation it runs on, over the shared state, to its next place. The
program of all processes is a `Program`, which also tells the locks that a process
holds at a place.

* `LockInv.step` — when that table is right for every place (`Program.Sound`), the
  owners of the locks are the processes that the table says, after any step;
* `Run.invariant` — the induction rule for runs;
* `Run.play` — the run that a schedule makes;
* `not_deadlocked` — no set of processes is deadlocked when some bounded rank grows
  along every wait.
-/

namespace Locks

/-- What a process does next: take a lock and wait for it if need be, give one
back, try one and go on without it, or nothing. -/
inductive Act (L : Type*)
  | acquire (l : L)
  | release (l : L)
  | attempt (l : L)
  | none
deriving DecidableEq

/-- The program that the processes run, over locks `L`, shared states `S`, places `C`
and events `E`. -/
structure Program (L S C E : Type*) where
  /-- where a process is between two calls -/
  rest  : C
  act   : C → Act L
  /-- the rest of the step once the lock operation is done -/
  next  : S → C → C × S × Option E
  /-- where an attempt leads that fails -/
  fail  : C → C
  holds : C → List L

structure Sys (T L S C : Type*) where
  shared : S
  owner  : L → Option T
  place  : T → C

variable {T L S C E : Type*} [DecidableEq T] [DecidableEq L]

/-- Process `t` goes to the place `c`, and nothing else changes. -/
def Sys.goto (s : Sys T L S C) (t : T) (c : C) : Sys T L S C :=
  { s with place := Function.update s.place t c }

/-- Process `t` runs to its next place, with the locks owned as in `owner`. -/
def Sys.run (s : Sys T L S C) (M : Program L S C E) (t : T) (owner : L → Option T) :
    Sys T L S C where
  shared := (M.next s.shared (s.place t)).2.1
  owner := owner
  place := Function.update s.place t (M.next s.shared (s.place t)).1

/-- One step of process `t`. `entry` tells the places where a call may begin. -/
inductive Step (M : Program L S C E) (entry : S → C → Prop) (t : T) :
    Sys T L S C → Option E → Sys T L S C → Prop
  | begin {s : Sys T L S C} {c : C} (atRest : s.place t = M.rest) (allowed : entry s.shared c) :
      Step M entry t s none (s.goto t c)
  | take {s : Sys T L S C} {l : L}
      (act : M.act (s.place t) = .acquire l ∨ M.act (s.place t) = .attempt l)
      (free : s.owner l = none) :
      Step M entry t s (M.next s.shared (s.place t)).2.2
        (s.run M t (Function.update s.owner l (some t)))
  | busy {s : Sys T L S C} {l : L} (act : M.act (s.place t) = .attempt l)
      (held : s.owner l ≠ none) : Step M entry t s none (s.goto t (M.fail (s.place t)))
  | drop {s : Sys T L S C} {l : L} (act : M.act (s.place t) = .release l)
      (owned : s.owner l = some t) :
      Step M entry t s (M.next s.shared (s.place t)).2.2
        (s.run M t (Function.update s.owner l none))

/-! ## Who holds what -/

/-- The table of held locks is right for every step of the program. -/
structure Program.Sound (M : Program L S C E) (entry : S → C → Prop) : Prop where
  rest    : M.holds M.rest = []
  entry   : ∀ s c, entry s c → M.holds c = []
  take    : ∀ s c l, M.act c = .acquire l ∨ M.act c = .attempt l →
    (M.holds (M.next s c).1).Perm (l :: M.holds c)
  fail    : ∀ c l, M.act c = .attempt l → (M.holds (M.fail c)).Perm (M.holds c)
  release : ∀ s c l, M.act c = .release l → (M.holds c).Perm (l :: M.holds (M.next s c).1)

/-- The owner of a lock is the process whose place says so. -/
structure LockInv (M : Program L S C E) (s : Sys T L S C) : Prop where
  owner : ∀ l t, s.owner l = some t ↔ l ∈ M.holds (s.place t)
  nodup : ∀ t, (M.holds (s.place t)).Nodup

section

variable {M : Program L S C E} {entry : S → C → Prop} {s s' : Sys T L S C} {t t' : T} {e : Option E}

omit [DecidableEq T] [DecidableEq L] in
/-- Two processes do not hold one lock. -/
theorem LockInv.unique (h : LockInv M s) {l : L} (ht : l ∈ M.holds (s.place t))
    (ht' : l ∈ M.holds (s.place t')) : t = t' :=
  Option.some.inj (((h.owner l t).mpr ht).symm.trans ((h.owner l t').mpr ht'))

omit [DecidableEq L] in
theorem LockInv.goto (h : LockInv M s) {c : C} (hPerm : (M.holds c).Perm (M.holds (s.place t))) :
    LockInv M (s.goto t c) := by
  have hSame : ∀ u, (M.holds ((s.goto t c).place u)).Perm (M.holds (s.place u)) := by
    intro u
    by_cases hu : u = t
    · subst hu
      simpa [Sys.goto] using hPerm
    · simp [Sys.goto, Function.update_of_ne hu]
  refine ⟨fun l u => ?_, fun u => (hSame u).nodup_iff.mpr (h.nodup u)⟩
  rw [(hSame u).mem_iff]
  exact h.owner l u

omit [DecidableEq L] in
/-- The process that moves owns what its new place holds; the other processes keep
what they own. -/
theorem LockInv.run {owner' : L → Option T} (h : LockInv M s)
    (hSelf : ∀ l, owner' l = some t ↔ l ∈ M.holds (M.next s.shared (s.place t)).1)
    (hNodup : (M.holds (M.next s.shared (s.place t)).1).Nodup)
    (hOther : ∀ l u, u ≠ t → (owner' l = some u ↔ s.owner l = some u)) :
    LockInv M (s.run M t owner') := by
  -- only the place of t is new
  have hPlace : ∀ u, u ≠ t → (s.run M t owner').place u = s.place u :=
    fun u hu => Function.update_of_ne hu _ _
  have hMoved : (s.run M t owner').place t = (M.next s.shared (s.place t)).1 :=
    Function.update_self ..
  constructor
  · intro l u
    by_cases hu : u = t
    · subst hu
      rw [hMoved]
      exact hSelf l
    · rw [hPlace u hu, ← h.owner]
      exact hOther l u hu
  · intro u
    by_cases hu : u = t
    · subst hu
      rwa [hMoved]
    · rw [hPlace u hu]
      exact h.nodup u

theorem LockInv.take (h : LockInv M s) {l : L} (hFree : s.owner l = none)
    (hPerm : (M.holds (M.next s.shared (s.place t)).1).Perm (l :: M.holds (s.place t))) :
    LockInv M (s.run M t (Function.update s.owner l (some t))) := by
  -- a lock that is free is in no row of the table
  have hNew : ∀ u, l ∉ M.holds (s.place u) := by
    intro u hu
    rw [(h.owner l u).mpr hu] at hFree
    cases hFree
  refine h.run ?_ (hPerm.nodup_iff.mpr (List.nodup_cons.mpr ⟨hNew t, h.nodup t⟩)) ?_
  · intro l'
    rw [hPerm.mem_iff, List.mem_cons, ← h.owner]
    by_cases hl : l' = l
    · simp [hl]
    · simp [hl]
  · intro l' u hu
    by_cases hl : l' = l
    · simp [hl, hFree, Ne.symm hu]
    · rw [Function.update_of_ne hl]

theorem LockInv.drop (h : LockInv M s) {l : L}
    (hPerm : (M.holds (s.place t)).Perm (l :: M.holds (M.next s.shared (s.place t)).1)) :
    LockInv M (s.run M t (Function.update s.owner l none)) := by
  have hNodup := List.nodup_cons.mp (hPerm.nodup_iff.mp (h.nodup t))
  have hOwned : s.owner l = some t :=
    (h.owner l t).mpr (hPerm.mem_iff.mpr (List.mem_cons_self ..))
  refine h.run ?_ hNodup.2 ?_
  · intro l'
    by_cases hl : l' = l
    · -- the lock that is given back is not in the new row
      simp [hl, hNodup.1]
    · rw [Function.update_of_ne hl, h.owner, hPerm.mem_iff, List.mem_cons]
      simp [hl]
  · intro l' u hu
    by_cases hl : l' = l
    · simp [hl, hOwned, Ne.symm hu]
    · rw [Function.update_of_ne hl]

theorem LockInv.step (hSound : M.Sound entry) (h : LockInv M s) (hStep : Step M entry t s e s') :
    LockInv M s' := by
  cases hStep with
  | begin atRest allowed =>
    -- nothing is held at rest, nor where a call begins
    refine h.goto ?_
    rw [atRest, hSound.rest, hSound.entry _ _ allowed]
  | take act free => exact h.take free (hSound.take _ _ _ act)
  | busy act held => exact h.goto (hSound.fail _ _ act)
  | drop act owned => exact h.drop (hSound.release _ _ _ act)

/-- The other processes stay where they are. -/
theorem Step.place_of_ne (hStep : Step M entry t s e s') {u : T} (hu : u ≠ t) :
    s'.place u = s.place u := by
  cases hStep <;> exact Function.update_of_ne hu _ _

/-! ## Runs -/

/-- A run of steps of `R` from `x0`, with the events it has made. -/
inductive Run {X E : Type*} (R : X → Option E → X → Prop) (x0 : X) : List E → X → Prop
  | start : Run R x0 [] x0
  | step {es : List E} {x x' : X} {e : Option E} (run : Run R x0 es x) (move : R x e x') :
      Run R x0 (es ++ e.toList) x'

theorem Run.invariant {X E : Type*} {R : X → Option E → X → Prop} {x0 x : X} {es : List E}
    {I : List E → X → Prop} (h : Run R x0 es x) (hStart : I [] x0)
    (hStep : ∀ es x e x', I es x → R x e x' → I (es ++ e.toList) x') : I es x := by
  induction h with
  | start => exact hStart
  | step _ move ih => exact hStep _ _ _ _ ih move

theorem Run.mono {X E : Type*} {R R' : X → Option E → X → Prop} {x0 x : X} {es : List E}
    (h : Run R x0 es x) (hR : ∀ x e x', R x e x' → R' x e x') : Run R' x0 es x :=
  h.invariant (I := fun es x => Run R' x0 es x) .start fun _ _ _ _ hRun hMove =>
    hRun.step (hR _ _ _ hMove)

/-! ## Schedules -/

/-- The step of process `t` at its place, unless it has to wait there. -/
def Sys.move (s : Sys T L S C) (M : Program L S C E) (t : T) : Option (Option E × Sys T L S C) :=
  let taken (l : L) := s.run M t (Function.update s.owner l (some t))
  match M.act (s.place t) with
  | .acquire l =>
    if s.owner l = none then some ((M.next s.shared (s.place t)).2.2, taken l) else none
  | .attempt l =>
    if s.owner l = none then some ((M.next s.shared (s.place t)).2.2, taken l)
    else some (none, s.goto t (M.fail (s.place t)))
  | .release l =>
    if s.owner l = some t then
      some ((M.next s.shared (s.place t)).2.2, s.run M t (Function.update s.owner l none))
    else none
  | .none => none

theorem Sys.step_of_move (h : s.move M t = some (e, s')) : Step M entry t s e s' := by
  unfold Sys.move at h
  -- a lock is taken when it is free; an attempt goes on without it
  cases hAct : M.act (s.place t) with
  | acquire l =>
    by_cases hFree : s.owner l = none
    · simp only [hAct, if_pos hFree, Option.some.injEq, Prod.mk.injEq] at h
      obtain ⟨rfl, rfl⟩ := h
      exact .take (Or.inl hAct) hFree
    · simp [hAct, hFree] at h
  | attempt l =>
    by_cases hFree : s.owner l = none
    · simp only [hAct, if_pos hFree, Option.some.injEq, Prod.mk.injEq] at h
      obtain ⟨rfl, rfl⟩ := h
      exact .take (Or.inr hAct) hFree
    · simp only [hAct, if_neg hFree, Option.some.injEq, Prod.mk.injEq] at h
      obtain ⟨rfl, rfl⟩ := h
      exact .busy hAct hFree
  | release l =>
    by_cases hOwned : s.owner l = some t
    · simp only [hAct, if_pos hOwned, Option.some.injEq, Prod.mk.injEq] at h
      obtain ⟨rfl, rfl⟩ := h
      exact .drop hAct hOwned
    · simp [hAct, hOwned] at h
  | none => simp [hAct] at h

/-- The processes move in the order of a schedule; one that has to wait is passed
over. -/
def Sys.play (M : Program L S C E) (s : Sys T L S C) : List T → List E × Sys T L S C
  | [] => ([], s)
  | t :: ts =>
    match s.move M t with
    | none => s.play M ts
    | some (e, s') => (e.toList ++ (s'.play M ts).1, (s'.play M ts).2)

theorem Run.play {R : Sys T L S C → Option E → Sys T L S C → Prop} {s0 : Sys T L S C}
    {es : List E} (hR : ∀ s t e s', Step M entry t s e s' → R s e s') (ts : List T)
    (h : Run R s0 es s) : Run R s0 (es ++ (s.play M ts).1) (s.play M ts).2 := by
  induction ts generalizing es s with
  | nil => simpa [Sys.play] using h
  | cons t ts ih =>
    unfold Sys.play
    cases hMove : s.move M t with
    | none => exact ih h
    | some r =>
      have hStep : R s r.1 r.2 := hR _ _ _ _ (Sys.step_of_move hMove)
      simpa using ih (h.step hStep)

/-! ## Deadlock -/

/-- Process `t` waits for a lock that the other process `t'` holds. -/
def WaitsFor (M : Program L S C E) (s : Sys T L S C) (t t' : T) : Prop :=
  ∃ l, M.act (s.place t) = .acquire l ∧ s.owner l = some t' ∧ t' ≠ t

/-- Every process of the set waits for another one of it. -/
def Deadlocked (M : Program L S C E) (s : Sys T L S C) (ts : Set T) : Prop :=
  ts.Nonempty ∧ ∀ t ∈ ts, ∃ t' ∈ ts, WaitsFor M s t t'

omit [DecidableEq T] [DecidableEq L] in
/-- A bounded rank that grows along every wait for a waiting process. -/
theorem not_deadlocked (rank : T → Nat) (bound : Nat) (hBound : ∀ t, rank t ≤ bound)
    (hGrow : ∀ t t' t'', WaitsFor M s t t' → WaitsFor M s t' t'' → rank t < rank t') (ts : Set T) :
    ¬ Deadlocked M s ts := by
  rintro ⟨⟨t0, ht0⟩, hWait⟩
  -- following the waits, the rank passes every bound
  have hClimb : ∀ n, ∃ t ∈ ts, n ≤ rank t := by
    intro n
    induction n with
    | zero => exact ⟨t0, ht0, Nat.zero_le _⟩
    | succ n ih =>
      obtain ⟨t, ht, hn⟩ := ih
      obtain ⟨t', ht', hEdge⟩ := hWait t ht
      obtain ⟨t'', -, hNext⟩ := hWait t' ht'
      exact ⟨t', ht', Nat.lt_of_le_of_lt hn (hGrow t t' t'' hEdge hNext)⟩
  obtain ⟨t, -, hHigh⟩ := hClimb (bound + 1)
  have hLow := hBound t
  omega

end

end Locks
