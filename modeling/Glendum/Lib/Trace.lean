import Mathlib.Data.List.Basic
import Mathlib.Tactic.Common

/-!
# Runs of operations

A machine takes operations one after the other; what the world decides (whether a
call is granted, which bytes arrive) is part of the operation, and an operation that
cannot happen in a state has no next state.

* `run_invariant` — what every operation keeps, the run keeps;
* `run_defined` — what lets every operation happen and is kept lets every run happen;
* `throughout_iff_prefix` — what holds throughout a run holds after each of its beginnings;
* `throughout_iff_always` — when the operations that break a property are known
  exactly, the runs that keep it are: the ones that have no such operation;
* `always_iff_always` — two conditions on operations that agree wherever the
  invariant holds agree over whole runs;
* `last_iff_always` — what operations break for good is known from the last state;
* `run_reaches` — when from every other state one operation leads nearer to a goal, a run does;
* `run_simulates` — when another machine can follow every operation, it can follow the run;
* `run_bisimulates` — when two machines can take the same operations from related states, they
  can take the same runs.
-/

namespace Trace

variable {S O : Type*}

/-- The state after the operations, if each of them can happen where it comes. -/
def run (step : S → O → Option S) : S → List O → Option S
  | s, [] => some s
  | s, o :: os => (step s o).bind fun s' => run step s' os

/-- Every operation of the run meets the condition in the state that it finds. -/
def Always (step : S → O → Option S) (ok : S → O → Prop) : S → List O → Prop
  | _, [] => True
  | s, o :: os => ok s o ∧ ∀ s', step s o = some s' → Always step ok s' os

/-- Every state of the run, the first one included, has the property. -/
def Throughout (step : S → O → Option S) (P : S → Prop) : S → List O → Prop
  | s, [] => P s
  | s, o :: os => P s ∧ ∀ s', step s o = some s' → Throughout step P s' os

section

variable {step : S → O → Option S} {ok : S → O → Prop} {I P : S → Prop} {s s' t : S} {o : O}
  {os : List O}

theorem run_cons (h : run step s (o :: os) = some t) :
    ∃ s', step s o = some s' ∧ run step s' os = some t :=
  Option.bind_eq_some_iff.mp h

theorem run_append (os' : List O) :
    run step s (os ++ os') = (run step s os).bind fun s' => run step s' os' := by
  induction os generalizing s with
  | nil => rfl
  | cons o os ih =>
    rw [List.cons_append, run, run, Option.bind_assoc]
    exact congrArg _ (funext fun s' => ih)

/-- When what holds lets every operation happen and is kept by it, every run happens. -/
theorem run_defined (hStep : ∀ s o, I s → ∃ s', step s o = some s' ∧ I s') (hStart : I s)
    (os : List O) : ∃ t, run step s os = some t ∧ I t := by
  induction os generalizing s with
  | nil => exact ⟨s, rfl, hStart⟩
  | cons o os ih =>
    obtain ⟨s', hMove, hNext⟩ := hStep s o hStart
    obtain ⟨t, hRest, hLast⟩ := ih hNext
    exact ⟨t, by rw [run, hMove, Option.bind_some, hRest], hLast⟩

/-- Operations that can always happen. -/
theorem run_total (h : ∀ s o, ∃ s', step s o = some s') (s : S) (os : List O) :
    ∃ t, run step s os = some t := by
  have hStep : ∀ s o, True → ∃ s', step s o = some s' ∧ True := fun s o _ =>
    (h s o).imp fun s' hMove => ⟨hMove, trivial⟩
  obtain ⟨t, hRun, -⟩ := run_defined hStep trivial os
  exact ⟨t, hRun⟩

/-- The induction rule for runs whose operations all meet a condition. -/
theorem run_invariant (hStep : ∀ s o s', I s → ok s o → step s o = some s' → I s')
    (hStart : I s) (hOk : Always step ok s os) (h : run step s os = some t) : I t := by
  induction os generalizing s with
  | nil =>
    obtain rfl : s = t := Option.some.inj h
    exact hStart
  | cons o os ih =>
    obtain ⟨s', hMove, hRest⟩ := run_cons h
    exact ih (hStep s o s' hStart hOk.1 hMove) (hOk.2 s' hMove) hRest

/-- What holds of the operations wherever they come. -/
theorem always_of_forall (h : ∀ o ∈ os, ∀ s, ok s o) : Always step ok s os := by
  induction os generalizing s with
  | nil => trivial
  | cons o os ih =>
    obtain ⟨hFirst, hRest⟩ := List.forall_mem_cons.mp h
    exact ⟨hFirst s, fun s' _ => ih hRest⟩

theorem always_true : Always step (fun _ _ => True) s os :=
  always_of_forall fun _ _ _ => trivial

/-- The condition holds over a run and over what follows where the run has led. -/
theorem always_append {os' : List O} :
    Always step ok s (os ++ os') ↔
      Always step ok s os ∧ ∀ t, run step s os = some t → Always step ok t os' := by
  -- induction on the first run; what follows starts where it has led
  induction os generalizing s with
  | nil =>
    constructor
    · intro h
      refine ⟨trivial, fun t ht => ?_⟩
      obtain rfl : s = t := Option.some.inj ht
      exact h
    · rintro ⟨-, h⟩
      exact h s rfl
  | cons o os ih =>
    constructor
    · rintro ⟨hFirst, hRest⟩
      refine ⟨⟨hFirst, fun s' hMove => (ih.mp (hRest s' hMove)).1⟩, fun t ht => ?_⟩
      obtain ⟨s', hMove, hRun⟩ := run_cons ht
      exact (ih.mp (hRest s' hMove)).2 t hRun
    · rintro ⟨⟨hFirst, hRest⟩, hLater⟩
      refine ⟨hFirst, fun s' hMove => ih.mpr ⟨hRest s' hMove, fun t ht => hLater t ?_⟩⟩
      rw [run, hMove, Option.bind_some, ht]

/-- The condition holds of an operation that comes where the others have led. -/
theorem Always.last (h : Always step ok s (os ++ [o])) (hRun : run step s os = some t) :
    ok t o :=
  ((always_append.mp h).2 t hRun).1

/-- A condition that can be tested where an operation comes can be tested over a run. -/
instance decidableAlways [∀ s o, Decidable (ok s o)] : ∀ s os, Decidable (Always step ok s os)
  | _, [] => isTrue trivial
  | s, o :: os =>
    match h : step s o with
    | none =>
      decidable_of_iff (ok s o)
        ⟨fun hOk => ⟨hOk, fun s' hs => by simp [h] at hs⟩, fun hAll => hAll.1⟩
    | some s' =>
      have := decidableAlways s' os
      decidable_of_iff (ok s o ∧ Always step ok s' os)
        ⟨fun ⟨hOk, hRest⟩ => ⟨hOk, fun u hu => Option.some.inj (h.symm.trans hu) ▸ hRest⟩,
          fun hAll => ⟨hAll.1, hAll.2 s' h⟩⟩

theorem Always.and {ok' : S → O → Prop} (h : Always step ok s os) (h' : Always step ok' s os) :
    Always step (fun s o => ok s o ∧ ok' s o) s os := by
  induction os generalizing s with
  | nil => trivial
  | cons o os ih => exact ⟨⟨h.1, h'.1⟩, fun s' hMove => ih (h.2 s' hMove) (h'.2 s' hMove)⟩

/-- A condition on the operations alone. -/
theorem always_iff_forall {p : O → Prop} (h : run step s os = some t) :
    Always step (fun _ o => p o) s os ↔ ∀ o ∈ os, p o := by
  induction os generalizing s with
  | nil => exact iff_of_true trivial fun o ho => absurd ho List.not_mem_nil
  | cons o os ih =>
    obtain ⟨s', hMove, hRest⟩ := run_cons h
    rw [List.forall_mem_cons, ← ih hRest]
    refine and_congr_right fun _ => ⟨fun hLater => hLater s' hMove, fun hLater u hu => ?_⟩
    obtain rfl : s' = u := Option.some.inj (hMove.symm.trans hu)
    exact hLater

/-- What every operation keeps without a condition. -/
theorem run_keeps (hStep : ∀ s o s', I s → step s o = some s' → I s') (hStart : I s)
    (h : run step s os = some t) : I t :=
  run_invariant (fun s o s' hs _ hMove => hStep s o s' hs hMove) hStart always_true h

theorem Throughout.start (h : Throughout step P s os) : P s := by
  cases os with
  | nil => exact h
  | cons o os => exact h.1

/-- What holds throughout holds after each operation. -/
theorem Throughout.next (h : Throughout step P s os) :
    Always step (fun s o => ∀ s', step s o = some s' → P s') s os := by
  induction os generalizing s with
  | nil => trivial
  | cons o os ih =>
    obtain ⟨-, hLater⟩ := h
    exact ⟨fun s' hMove => (hLater s' hMove).start, fun s' hMove => ih (hLater s' hMove)⟩

/-- The states of a run are the ends of its beginnings. -/
theorem throughout_iff_prefix :
    Throughout step P s os ↔ ∀ os', os' <+: os → ∀ t, run step s os' = some t → P t := by
  induction os generalizing s with
  | nil =>
    refine ⟨fun h os' hPre t hRun => ?_, fun h => h [] (List.prefix_refl _) s rfl⟩
    obtain rfl := List.prefix_nil.mp hPre
    obtain rfl : s = t := Option.some.inj hRun
    exact h
  | cons o os ih =>
    constructor
    · rintro ⟨hFirst, hLater⟩ os' hPre t hRun
      -- the beginning is empty, or has the first operation
      rcases List.prefix_cons_iff.mp hPre with rfl | ⟨os'', rfl, hRest⟩
      · obtain rfl : s = t := Option.some.inj hRun
        exact hFirst
      · obtain ⟨s', hMove, hRun'⟩ := run_cons hRun
        exact ih.mp (hLater s' hMove) os'' hRest t hRun'
    · intro h
      refine ⟨h [] List.nil_prefix s rfl, fun s' hMove => ih.mpr fun os' hPre t hRun => ?_⟩
      refine h (o :: os') (List.prefix_cons_iff.mpr (Or.inr ⟨os', rfl, hPre⟩)) t ?_
      rw [run, hMove, Option.bind_some, hRun]

theorem throughout_iff_always (hStep : ∀ s o s', I s → ok s o → step s o = some s' → I s')
    (hHolds : ∀ s, I s → P s) (hBreak : ∀ s o s', I s → ¬ ok s o → step s o = some s' → ¬ P s')
    (hStart : I s) (h : run step s os = some t) : Throughout step P s os ↔ Always step ok s os := by
  induction os generalizing s with
  | nil => exact iff_of_true (hHolds s hStart) trivial
  | cons o os ih =>
    obtain ⟨s', hMove, hRest⟩ := run_cons h
    -- the operation leads to one state only
    have hOnly : ∀ u, step s o = some u → u = s' := fun u hu => Option.some.inj (hu.symm.trans hMove)
    by_cases hOk : ok s o
    · have hNext := ih (hStep s o s' hStart hOk hMove) hRest
      constructor
      · rintro ⟨-, hLater⟩
        refine ⟨hOk, fun u hu => ?_⟩
        rw [hOnly u hu]
        exact hNext.mp (hLater s' hMove)
      · rintro ⟨-, hLater⟩
        refine ⟨hHolds s hStart, fun u hu => ?_⟩
        rw [hOnly u hu]
        exact hNext.mpr (hLater s' hMove)
    · -- this operation breaks the property at once
      constructor
      · rintro ⟨-, hLater⟩
        exact absurd (hLater s' hMove).start (hBreak s o s' hStart hOk hMove)
      · rintro ⟨hMet, -⟩
        exact absurd hMet hOk

/-- The invariant only has to survive the operations that meet the conditions, where
`assumed` is what is known of every operation. -/
theorem always_iff_always_of {assumed wanted : S → O → Prop}
    (hStep : ∀ s o s', I s → assumed s o → ok s o → step s o = some s' → I s')
    (hSame : ∀ s o s', I s → assumed s o → step s o = some s' → (wanted s o ↔ ok s o))
    (hStart : I s) (hKnown : Always step assumed s os) (h : run step s os = some t) :
    Always step wanted s os ↔ Always step ok s os := by
  induction os generalizing s with
  | nil => exact Iff.rfl
  | cons o os ih =>
    obtain ⟨s', hMove, hRest⟩ := run_cons h
    obtain ⟨hHere, hLater⟩ := hKnown
    have hFirst := hSame s o s' hStart hHere hMove
    by_cases hOk : ok s o
    · have hNext := ih (hStep s o s' hStart hHere hOk hMove) (hLater s' hMove) hRest
      refine and_congr hFirst (forall_congr' fun u => ?_)
      constructor
      · rintro hAll hu
        obtain rfl : u = s' := Option.some.inj (hu.symm.trans hMove)
        exact hNext.mp (hAll hu)
      · rintro hAll hu
        obtain rfl : u = s' := Option.some.inj (hu.symm.trans hMove)
        exact hNext.mpr (hAll hu)
    -- both sides fail at this operation, whatever comes later
    · exact iff_of_false (fun hAll => hOk (hFirst.mp hAll.1)) fun hAll => hOk hAll.1

theorem always_iff_always {wanted : S → O → Prop}
    (hStep : ∀ s o s', I s → ok s o → step s o = some s' → I s')
    (hSame : ∀ s o s', I s → step s o = some s' → (wanted s o ↔ ok s o))
    (hStart : I s) (h : run step s os = some t) :
    Always step wanted s os ↔ Always step ok s os :=
  always_iff_always_of (fun s o s' hs _ hOk hMove => hStep s o s' hs hOk hMove)
    (fun s o s' hs _ hMove => hSame s o s' hs hMove) hStart always_true h

end

/-! ## What cannot be mended -/

section

variable {step : S → O → Option S} {assumed ok : S → O → Prop} {I P : S → Prop} {s t : S}
  {os : List O}

/-- When the operations that break a property are known exactly, and nothing mends it, the
last state tells whether one of them was in the run. -/
theorem last_iff_always (hStep : ∀ s o s', I s → assumed s o → step s o = some s' → I s')
    (hKeeps : ∀ s o s', I s → step s o = some s' → P s → (P s' ↔ ok s o))
    (hNever : ∀ s o s', I s → step s o = some s' → ¬ P s → ¬ P s') (hStart : I s) (hHolds : P s)
    (hKnown : Always step assumed s os) (h : run step s os = some t) :
    P t ↔ Always step ok s os := by
  induction os generalizing s with
  | nil =>
    obtain rfl : s = t := Option.some.inj h
    exact iff_of_true hHolds trivial
  | cons o os ih =>
    obtain ⟨s', hMove, hRest⟩ := run_cons h
    obtain ⟨hHere, hLater⟩ := hKnown
    have hNext := hStep s o s' hStart hHere hMove
    by_cases hOk : ok s o
    · have hIff := ih hNext ((hKeeps s o s' hStart hMove hHolds).mpr hOk) (hLater s' hMove) hRest
      rw [hIff]
      refine ⟨fun hAll => ⟨hOk, fun u hu => ?_⟩, fun hAll => hAll.2 s' hMove⟩
      obtain rfl := Option.some.inj (hMove.symm.trans hu)
      exact hAll
    · refine iff_of_false ?_ fun hAll => hOk hAll.1
      have hBroken : ¬ P s' := fun hP => hOk ((hKeeps s o s' hStart hMove hHolds).mp hP)
      -- and so it stays
      exact (run_invariant (I := fun s => I s ∧ ¬ P s)
        (fun u o u' hu hOk' hMove' => ⟨hStep u o u' hu.1 hOk' hMove', hNever u o u' hu.1 hMove' hu.2⟩)
        ⟨hNext, hBroken⟩ (hLater s' hMove) hRest).2

end

/-! ## Reaching a goal -/

section

variable {step : S → O → Option S} {ok : S → O → Prop} {I Q : S → Prop} {s : S}

theorem run_reaches (measure : S → Nat)
    (hNearer : ∀ s, I s → ¬ Q s → ∃ o s', ok s o ∧ step s o = some s' ∧ I s' ∧ measure s' < measure s)
    (hStart : I s) : ∃ os t, Always step ok s os ∧ run step s os = some t ∧ Q t := by
  induction hn : measure s using Nat.strongRecOn generalizing s with
  | ind n ih =>
    by_cases hGoal : Q s
    · exact ⟨[], s, trivial, rfl, hGoal⟩
    · obtain ⟨o, s', hOk, hMove, hKept, hLess⟩ := hNearer s hStart hGoal
      obtain ⟨os, t, hRest, hRun, hEnd⟩ := ih (measure s') (hn ▸ hLess) hKept rfl
      refine ⟨o :: os, t, ⟨hOk, fun u hu => ?_⟩, ?_, hEnd⟩
      · obtain rfl := Option.some.inj (hMove.symm.trans hu)
        exact hRest
      · rw [run, hMove, Option.bind_some, hRun]

end

/-! ## Another machine -/

section

variable {S' O' : Type*} {step : S → O → Option S} {step' : S' → O' → Option S'}
  {ok : S → O → Prop} {I : S → Prop} {s t : S} {os : List O}

/-- What another machine does along the run, when it does `acts s o` for the operation `o`. -/
def follow (step : S → O → Option S) (acts : S → O → List O') : S → List O → List O'
  | _, [] => []
  | s, o :: os => acts s o ++ (step s o).elim [] fun s' => follow step acts s' os

/-- The other machine follows from the state `f s`. -/
theorem run_simulates {f : S → S'} {acts : S → O → List O'}
    (hStep : ∀ s o s', I s → ok s o → step s o = some s' →
      run step' (f s) (acts s o) = some (f s') ∧ I s')
    (hStart : I s) (hOk : Always step ok s os) (h : run step s os = some t) :
    run step' (f s) (follow step acts s os) = some (f t) ∧ I t := by
  induction os generalizing s with
  | nil =>
    obtain rfl : s = t := Option.some.inj h
    exact ⟨rfl, hStart⟩
  | cons o os ih =>
    obtain ⟨s', hMove, hRest⟩ := run_cons h
    obtain ⟨hHere, hNext⟩ := hStep s o s' hStart hOk.1 hMove
    obtain ⟨hLater, hLast⟩ := ih hNext (hOk.2 s' hMove) hRest
    refine ⟨?_, hLast⟩
    rw [follow, hMove, Option.elim_some, run_append, hHere, Option.bind_some, hLater]

/-- Two machines that take the same operations, with related states after each of them. -/
theorem run_bisimulates {step'' : S' → O → Option S'} {R : S → S' → Prop}
    (hStep : ∀ s t o, R s t → ok s o → step s o = none ∧ step'' t o = none ∨
      ∃ s' t', step s o = some s' ∧ step'' t o = some t' ∧ R s' t')
    {t : S'} (hStart : R s t) (hOk : Always step ok s os) :
    run step s os = none ∧ run step'' t os = none ∨
      ∃ s' t', run step s os = some s' ∧ run step'' t os = some t' ∧ R s' t' := by
  induction os generalizing s t with
  | nil => exact Or.inr ⟨s, t, rfl, rfl, hStart⟩
  | cons o os ih =>
    rw [run, run]
    rcases hStep s t o hStart hOk.1 with ⟨hs, ht⟩ | ⟨s', t', hs, ht, hNext⟩
    · rw [hs, ht]
      exact Or.inl ⟨rfl, rfl⟩
    · rw [hs, ht]
      exact ih hNext (hOk.2 s' hs)

end

end Trace
