import Glendum.Arch.Mtrrop

/-!
# Glendum — the processors part

A processor leaves `mtrrop` when it finds `bar1` at 0. If another one is quick, posts again and
raises `bar1` before that, the two wait for each other: one for a counter that is not 0 any
more, the other for a processor that does not come. And if the clock brings all the processors
to `mtrrop` before the poster has called it, the one on which it runs among them, they are
through without the poster, which then waits alone, or finds the operation gone.

* `stuck_step`, `stuck_iff_apart` — how two processors come to wait for each other, for good;
* `unattended_of_late`, `alone_step` — what becomes of a poster that comes too late;
* `nearer` — otherwise some processor can go on, and the end comes nearer;
* `mtrrop_completes` — so a run can be brought to an end exactly when neither has happened.
-/

namespace Glendum

open Machine

variable {n : Nat} {α : Type*}

/-- No processor comes to the first counter while another one waits to leave it. -/
def MeetOp.Apart (s : Meeting n α) : MeetOp n α → Prop
  | .move i => s.pc i = .start → ∀ j, s.pc j ≠ .wait3
  | _ => True

/-- Nothing is posted, and no processor is in `mtrrop`. -/
structure Meeting.Quiet (s : Meeting n α) : Prop where
  pc       : ∀ i, s.pc i = .idle
  postedop : s.postedop = none
  poster   : s.poster = .nobody

/-- One processor waits for the others to come, and another one for all to go. -/
def Meeting.Stuck (s : Meeting n α) : Prop := ∃ i j, s.pc i = .wait1 ∧ s.pc j = .wait3

namespace Meeting

variable {s s' t : Meeting n α} {i : Fin n} {o : MeetOp n α}

/-! ## What a processor does that goes on -/

structure Moved (s s' : Meeting n α) (i : Fin n) : Prop where
  idle    : s.pc i ≠ .idle
  pc      : s'.pc = Function.update s.pc i (s.pc i).next
  opens   : ∀ j, (s.pc i).opens (s.pc j) = true
  bar1    : s'.bar1 = countAt inBar1 s'.pc
  bar2    : s'.bar2 = countAt inBar2 s'.pc
  pending : s'.pending = (s.pending && s.pc i != .clear)
  poster  : s'.poster = s.poster ∨ s.poster = .inside i
  posted  : s'.posted = s.posted

/-- Where it changes the counters only. -/
theorem moved_counters (s' : Meeting n α) (hBar1 : s.bar1 = countAt inBar1 s.pc)
    (hBar2 : s.bar2 = countAt inBar2 s.pc) (hPlace : s.pc i ∉ [Pc.idle, .clear])
    (hOpens : ∀ j, (s.pc i).opens (s.pc j) = true)
    (hPc : s'.pc = Function.update s.pc i (s.pc i).next) (hOp : s'.postedop = s.postedop)
    (hPoster : s'.poster = s.poster ∨ s.poster = .inside i) (hPosted : s'.posted = s.posted)
    (hTo1 : s'.bar1 = s.bar1 + (if inBar1 (s.pc i).next = true then 1 else 0) -
      if inBar1 (s.pc i) = true then 1 else 0)
    (hTo2 : s'.bar2 = s.bar2 + (if inBar2 (s.pc i).next = true then 1 else 0) -
      if inBar2 (s.pc i) = true then 1 else 0) : Moved s s' i where
  idle hIdle := hPlace (by rw [hIdle]; decide)
  pc := hPc
  opens := hOpens
  bar1 := by rw [hTo1, hPc, countAt_goto, hBar1]
  bar2 := by rw [hTo2, hPc, countAt_goto, hBar2]
  pending := by
    have hClear : (s.pc i != .clear) = true := bne_iff_ne.mpr fun hEq => hPlace (by rw [hEq]; decide)
    rw [hClear, Bool.and_true]
    unfold pending
    rw [hOp]
  poster := hPoster
  posted := hPosted

/-- The counters tell who is where, and a processor that writes finds the operation. -/
theorem move_spec (hBar1 : s.bar1 = countAt inBar1 s.pc) (hBar2 : s.bar2 = countAt inBar2 s.pc)
    (hWrite : s.pc i = .write → s.pending = true) (h : s.move i = some s') : Moved s s' i := by
  have hCounters := moved_counters (i := i) s' hBar1 hBar2
  unfold move at h
  split at h
  · cases h
  · cases h
  · rename_i hPc
    obtain rfl := Option.some.inj h
    rw [hPc] at hCounters
    exact hCounters (by decide) (fun _ => rfl) rfl rfl (Or.inl rfl) rfl
      (by simp [goto, inBar1, Pc.next]) (by simp [goto, inBar2, Pc.next])
  · rename_i hPc
    split at h
    · cases h
    · rename_i hBar
      obtain rfl := Option.some.inj h
      rw [hBar1] at hBar
      rw [hPc] at hCounters
      exact hCounters (by decide) (all_of_count hBar) rfl rfl (Or.inl rfl) rfl
        (by simp [goto, inBar1, Pc.next]) (by simp [goto, inBar2, Pc.next])
  · rename_i hPc
    split at h
    · rename_i hOp
      have hPending := hWrite hPc
      unfold pending at hPending
      rw [hOp] at hPending
      cases hPending
    · obtain rfl := Option.some.inj h
      rw [hPc] at hCounters
      exact hCounters (by decide) (fun _ => rfl) rfl rfl (Or.inl rfl) rfl
        (by simp [goto, inBar1, Pc.next]) (by simp [goto, inBar2, Pc.next])
  · rename_i hPc
    obtain rfl := Option.some.inj h
    rw [hPc] at hCounters
    exact hCounters (by decide) (fun _ => rfl) rfl rfl (Or.inl rfl) rfl
      (by simp [goto, inBar1, Pc.next]) (by simp [goto, inBar2, Pc.next])
  · rename_i hPc
    split at h
    · cases h
    · rename_i hBar
      obtain rfl := Option.some.inj h
      rw [hBar2] at hBar
      rw [hPc] at hCounters
      exact hCounters (by decide) (all_of_count hBar) rfl rfl (Or.inl rfl) rfl
        (by simp [goto, inBar1, Pc.next]) (by simp [goto, inBar2, Pc.next])
  · rename_i hPc
    obtain rfl := Option.some.inj h
    -- the operation goes
    refine ⟨by rw [hPc]; decide, by rw [hPc]; rfl, fun j => by rw [hPc]; rfl, ?_, ?_, ?_, Or.inl rfl, rfl⟩
    · show s.bar1 = (countAt inBar1 (Function.update s.pc i .leave) : Int)
      rw [countAt_goto, hPc, hBar1]
      simp [inBar1]
    · show s.bar2 = (countAt inBar2 (Function.update s.pc i .leave) : Int)
      rw [countAt_goto, hPc, hBar2]
      simp [inBar2]
    · rw [hPc]
      show false = (s.pending && false)
      rw [Bool.and_false]
  · rename_i hPc
    obtain rfl := Option.some.inj h
    rw [hPc] at hCounters
    exact hCounters (by decide) (fun _ => rfl) rfl rfl (Or.inl rfl) rfl
      (by simp [goto, inBar1, Pc.next]) (by simp [goto, inBar2, Pc.next])
  · rename_i hPc
    split at h
    · cases h
    · rename_i hBar
      obtain rfl := Option.some.inj h
      rw [hBar1] at hBar
      rw [hPc] at hCounters
      refine hCounters (by decide) (fun j => ?_) rfl rfl (Or.inl rfl) rfl
        (by simp [goto, inBar1, Pc.next]) (by simp [goto, inBar2, Pc.next])
      show (!inBar1 (s.pc j)) = true
      rw [none_of_count hBar j]
      rfl
  · rename_i hPc
    obtain rfl := Option.some.inj h
    rw [hPc] at hCounters
    refine hCounters (by decide) (fun _ => rfl) rfl rfl ?_ rfl
      (by simp [goto, inBar1, Pc.next]) (by simp [goto, inBar2, Pc.next])
    by_cases hThis : s.poster = .inside i
    · exact Or.inr hThis
    · exact Or.inl (if_neg hThis)

/-- What a step in `mtrrop` does when it can be taken at all. -/
theorem Inv.moved (hInv : s.Inv) (h : s.move i = some s') : Moved s s' i := by
  refine move_spec hInv.bar1 hInv.bar2 (fun hWrite => ?_) h
  have hBase := hInv.base i
  rw [hWrite] at hBase
  cases hPending : s.pending with
  | true => rfl
  | false =>
    rw [hPending] at hBase
    cases hBase

/-- What a step does to the places of the processors. -/
theorem Inv.step_pc (hInv : s.Inv) (h : s.step o = some s') :
    s'.pc = s.pc ∨ ∃ i, s'.pc = Function.update s.pc i (s.pc i).next ∧
      (∀ j, (s.pc i).opens (s.pc j) = true) ∧ (s.pc i ≠ .idle → o = .move i) := by
  cases o with
  | post op =>
    rw [step] at h
    split at h
    · obtain rfl := Option.some.inj h
      exact Or.inl rfl
    · cases h
  | enter i =>
    rw [step] at h
    split at h
    -- the poster comes in from idle, where nothing is asked of the others
    · rename_i hReady
      obtain rfl := Option.some.inj h
      refine Or.inr ⟨i, ?_⟩
      rw [hReady.2]
      exact ⟨rfl, fun _ => rfl, fun hIdle => absurd rfl hIdle⟩
    · cases h
  | clock i =>
    rw [step] at h
    split at h
    · rename_i hPc
      obtain rfl := Option.some.inj h
      split
      · refine Or.inr ⟨i, ?_⟩
        rw [hPc]
        exact ⟨rfl, fun _ => rfl, fun hIdle => absurd rfl hIdle⟩
      · exact Or.inl rfl
    · cases h
  | move i =>
    have hMoved := hInv.moved h
    exact Or.inr ⟨i, hMoved.pc, hMoved.opens, fun _ => rfl⟩

/-! ## Stuck processors -/

/-- The two that wait for each other do not go on. -/
theorem stuck_step (hInv : s.Inv) (hStuck : s.Stuck) (h : s.step o = some s') : s'.Stuck := by
  obtain ⟨a, b, ha, hb⟩ := hStuck
  rcases hInv.step_pc h with hPc | ⟨i, hPc, hOpens, -⟩
  · exact ⟨a, b, by rw [hPc, ha], by rw [hPc, hb]⟩
  · have hia : a ≠ i := by
      intro hEq
      have hSees := hOpens b
      rw [← hEq, ha, hb] at hSees
      cases hSees
    have hib : b ≠ i := by
      intro hEq
      have hSees := hOpens a
      rw [← hEq, ha, hb] at hSees
      cases hSees
    refine ⟨a, b, ?_, ?_⟩
    · rw [hPc, Function.update_of_ne hia, ha]
    · rw [hPc, Function.update_of_ne hib, hb]

/-- Only one place leads to the wait on the first counter. -/
theorem start_of_next : ∀ p : Pc, p.next = .wait1 → p = .start := by
  decide

/-- And one to the wait for all to go. -/
theorem leave_of_next : ∀ p : Pc, p.next = .wait3 → p = .leave := by
  decide

/-- It happens when a processor comes to the first counter too early, and in no other way. -/
theorem stuck_iff_apart (hInv : s.Inv) (hFree : ¬ s.Stuck) (h : s.step o = some s') :
    ¬ s'.Stuck ↔ o.Apart s := by
  constructor
  · intro hNew
    cases o with
    | post op => trivial
    | enter i => trivial
    | clock i => trivial
    | move i =>
      intro hStart j hj
      have hPc := (hInv.moved h).pc
      have hji : j ≠ i := by
        intro hEq
        rw [hEq, hStart] at hj
        cases hj
      -- the one that comes waits for all, and `j` for it to go
      refine hNew ⟨i, j, ?_, ?_⟩
      · rw [hPc, Function.update_self, hStart]
        rfl
      · rw [hPc, Function.update_of_ne hji, hj]
  · rintro hApart ⟨a, b, ha, hb⟩
    rcases hInv.step_pc h with hPc | ⟨i, hPc, -, hMove⟩
    · rw [hPc] at ha hb
      exact hFree ⟨a, b, ha, hb⟩
    · rw [hPc] at ha hb
      by_cases hia : a = i
      · -- the one that comes
        rw [hia, Function.update_self] at ha
        have hStart := start_of_next _ ha
        have hbi : b ≠ i := by
          intro hEq
          rw [hEq, Function.update_self, ha] at hb
          cases hb
        rw [Function.update_of_ne hbi] at hb
        rw [hMove (by rw [hStart]; decide)] at hApart
        exact hApart hStart b hb
      · rw [Function.update_of_ne hia] at ha
        by_cases hib : b = i
        · -- the one that goes is not with one that comes
          rw [hib, Function.update_self] at hb
          have hPair := hInv.pair i a (Ne.symm hia)
          rw [leave_of_next _ hb, ha] at hPair
          cases hPending : s.pending <;> cases hMine : s.mine i <;> rw [hPending, hMine] at hPair <;>
            cases hPair
        · rw [Function.update_of_ne hib] at hb
          exact hFree ⟨a, b, ha, hb⟩

/-! ## A meeting without the poster -/

/-- Where a processor is when it has come for an operation whose poster is still outside. -/
def late (pending : Bool) (p : Pc) : Bool :=
  if pending = true then p ∈ [Pc.start, .wait1, .write, .sync, .wait2, .clear]
  else p ∈ [Pc.wait2, .clear, .leave, .wait3, .down, .idle]

/-- Two of them. -/
def together (p q : Pc) : Bool :=
  (p ∈ [Pc.start, .wait1] : Bool) && (q ∈ [Pc.start, .wait1] : Bool) || writing p && writing q ||
    leaving p && leaving q || away p && away q

/-- The others have come, and the poster has not. -/
structure Unattended (s : Meeting n α) : Prop where
  poster : s.poster = .ready
  bar1   : s.bar1 = countAt inBar1 s.pc
  bar2   : s.bar2 = countAt inBar2 s.pc
  late   : ∀ i, late s.pending (s.pc i) = true
  pair   : ∀ i j, i ≠ j → together (s.pc i) (s.pc j) = true

/-- The poster has come, and the operation is gone. -/
structure Alone (s : Meeting n α) (p : Fin n) : Prop where
  poster   : s.poster = .inside p
  pc       : s.pc p ∈ [Pc.start, .wait1, .write, .fault]
  postedop : s.postedop = none
  others   : ∀ j, j ≠ p → away (s.pc j) = true

/-- A processor that came without the poster goes on without it. -/
theorem late_next : ∀ b : Bool × Pc, late b.1 b.2 = true → b.2 ≠ .idle →
    late (b.1 && b.2 != .clear) b.2.next = true := by
  decide

/-- When the operation is cleared, so it is for all that came with the one that clears it. -/
theorem late_cleared : ∀ b : Bool × Pc, late b.1 b.2 = true → together .clear b.2 = true →
    late false b.2 = true := by
  decide

/-- Two that came together stay together. -/
theorem together_next : ∀ b : Pc × Pc, together b.1 b.2 = true → b.1.opens b.2 = true → b.1 ≠ .idle →
    together b.1.next b.2 = true ∧ together b.2 b.1.next = true := by
  decide +kernel

/-- Nobody in `mtrrop` brings the poster in. -/
theorem unattended_move (h : s.Unattended) (hMove : s.move i = some s') : s'.Unattended := by
  have hMoved : Moved s s' i := by
    refine move_spec h.bar1 h.bar2 (fun hWrite => ?_) hMove
    have hLate := h.late i
    rw [hWrite] at hLate
    cases hPending : s.pending with
    | true => rfl
    | false =>
      rw [hPending] at hLate
      cases hLate
  have hEach : ∀ j, j ≠ i → _ := fun j hj =>
    together_next (s.pc i, s.pc j) (h.pair i j (Ne.symm hj)) (hMoved.opens j) hMoved.idle
  constructor
  · rcases hMoved.poster with hSame | hInside
    · rw [hSame, h.poster]
    · rw [h.poster] at hInside
      cases hInside
  · exact hMoved.bar1
  · exact hMoved.bar2
  · intro j
    rw [hMoved.pending, hMoved.pc]
    by_cases hj : j = i
    · rw [hj, Function.update_self]
      exact late_next (s.pending, s.pc i) (h.late i) hMoved.idle
    · rw [Function.update_of_ne hj]
      by_cases hClear : s.pc i = .clear
      · -- the operation goes, and those that are with the processor have written
        have hPair := h.pair i j (Ne.symm hj)
        rw [hClear] at hPair ⊢
        show Meeting.late (s.pending && false) (s.pc j) = true
        rw [Bool.and_false]
        exact late_cleared (s.pending, s.pc j) (h.late j) hPair
      · rw [bne_iff_ne.mpr hClear, Bool.and_true]
        exact h.late j
  · intro j k hjk
    rw [hMoved.pc]
    by_cases hj : j = i
    · rw [hj] at hjk ⊢
      rw [Function.update_self, Function.update_of_ne (Ne.symm hjk)]
      exact (hEach k (Ne.symm hjk)).1
    · rw [Function.update_of_ne hj]
      by_cases hk : k = i
      · rw [hk, Function.update_self]
        exact (hEach j hj).2
      · rw [Function.update_of_ne hk]
        exact h.pair j k hjk

/-- Who came without the poster is out only when the operation is gone. -/
theorem late_idle : ∀ pending : Bool, late pending .idle = true → pending = false := by
  decide

/-- With one that is out all are out, or on the way. -/
theorem away_of_idle : ∀ p : Pc, together .idle p = true → away p = true := by
  decide

/-- The poster comes in while the others are on the way out, if it comes in at all. -/
theorem unattended_step (h : s.Unattended) (hStep : s.step o = some s') :
    s'.Unattended ∨ ∃ p, s'.Alone p := by
  -- an idle processor has been through already
  have hGone : ∀ i, s.pc i = .idle → s.postedop = none := by
    intro i hPc
    have hLate := h.late i
    rw [hPc] at hLate
    have hNone : s.postedop.isSome = false := late_idle s.pending hLate
    exact Option.not_isSome_iff_eq_none.mp (by rw [hNone]; exact Bool.false_ne_true)
  cases o with
  | post op =>
    rw [step, if_neg fun hFree => by rw [h.poster] at hFree; cases hFree.1] at hStep
    cases hStep
  | enter i =>
    rw [step] at hStep
    split at hStep
    · rename_i hReady
      obtain rfl := Option.some.inj hStep
      refine Or.inr ⟨i, rfl, ?_, hGone i hReady.2, fun j hj => ?_⟩
      · show Function.update s.pc i .start i ∈ _
        rw [Function.update_self]
        exact List.mem_cons_self
      · show away (Function.update s.pc i .start j) = true
        rw [Function.update_of_ne hj]
        have hPair := h.pair i j (Ne.symm hj)
        rw [hReady.2] at hPair
        exact away_of_idle _ hPair
    · cases hStep
  | clock i =>
    rw [step] at hStep
    split at hStep
    · rename_i hPc
      rw [hGone i hPc] at hStep
      obtain rfl := Option.some.inj hStep
      exact Or.inl h
    · cases hStep
  | move i => exact Or.inl (unattended_move h hStep)

/-- A processor other than the poster goes on its way out. -/
theorem away_move {p : Fin n} (h : s.Alone p) (hip : i ≠ p) (hMove : s.move i = some s') :
    s'.Alone p := by
  have hAway := h.others i hip
  -- whatever it does to the counters, the poster and the posted operation are left
  have hGoto : ∀ q : Pc, away q = true → ∀ b c,
      (({ s with bar1 := b, bar2 := c }.goto i q : Meeting n α)).Alone p := by
    intro q hq b c
    refine ⟨h.poster, ?_, h.postedop, fun j hj => ?_⟩
    · show Function.update s.pc i q p ∈ _
      rw [Function.update_of_ne (Ne.symm hip)]
      exact h.pc
    · show away (Function.update s.pc i q j) = true
      by_cases hji : j = i
      · rw [hji, Function.update_self]
        exact hq
      · rw [Function.update_of_ne hji]
        exact h.others j hj
  unfold move at hMove
  cases hPc : s.pc i with
  | idle =>
    rw [hPc] at hMove
    cases hMove
  | wait3 =>
    rw [hPc] at hMove
    obtain ⟨-, hGo⟩ := Option.ite_none_left_eq_some.mp hMove
    obtain rfl := Option.some.inj hGo
    exact hGoto .down rfl s.bar1 s.bar2
  | down =>
    rw [hPc] at hMove
    obtain rfl := Option.some.inj hMove
    rw [if_neg fun hEq => hip (Poster.inside.inj (hEq.symm.trans h.poster))]
    exact hGoto .idle rfl s.bar1 (s.bar2 - 1)
  | start | wait1 | write | sync | wait2 | clear | leave | fault =>
    rw [hPc] at hAway
    cases hAway

/-- The poster waits for ever, or finds the operation gone. -/
theorem poster_move {p : Fin n} (h : s.Alone p) (hMove : s.move p = some s') : s'.Alone p := by
  -- it is the only one that is not on its way out, so it stays in one of these places
  have hGoto : ∀ q : Pc, q ∈ [Pc.start, .wait1, .write, .fault] → ∀ b,
      (({ s with bar1 := b }.goto p q : Meeting n α)).Alone p := by
    intro q hq b
    refine ⟨h.poster, ?_, h.postedop, fun j hj => ?_⟩
    · show Function.update s.pc p q p ∈ _
      rw [Function.update_self]
      exact hq
    · show away (Function.update s.pc p q j) = true
      rw [Function.update_of_ne hj]
      exact h.others j hj
  have hPlace := h.pc
  unfold move at hMove
  cases hPc : s.pc p with
  | start =>
    rw [hPc] at hMove
    obtain rfl := Option.some.inj hMove
    exact hGoto .wait1 (by decide) (s.bar1 + 1)
  | wait1 =>
    rw [hPc] at hMove
    obtain ⟨-, hGo⟩ := Option.ite_none_left_eq_some.mp hMove
    obtain rfl := Option.some.inj hGo
    exact hGoto .write (by decide) s.bar1
  | write =>
    rw [hPc, h.postedop] at hMove
    obtain rfl := Option.some.inj hMove
    exact hGoto .fault (by decide) s.bar1
  | fault =>
    rw [hPc] at hMove
    cases hMove
  | idle | sync | wait2 | clear | leave | wait3 | down =>
    rw [hPc] at hPlace
    exact absurd hPlace (by decide)

/-- A poster alone stays alone: no clock comes in without an operation. -/
theorem alone_step {p : Fin n} (h : s.Alone p) (hStep : s.step o = some s') : s'.Alone p := by
  cases o with
  | post op =>
    rw [step, if_neg fun hFree => by rw [h.poster] at hFree; cases hFree.1] at hStep
    cases hStep
  | enter i =>
    rw [step, if_neg fun hReady => by rw [h.poster] at hReady; cases hReady.1] at hStep
    cases hStep
  | clock i =>
    rw [step] at hStep
    split at hStep
    · rw [h.postedop] at hStep
      obtain rfl := Option.some.inj hStep
      exact h
    · cases hStep
  | move i =>
    by_cases hip : i = p
    · subst hip
      exact poster_move h hStep
    · exact away_move h hip hStep

/-- Before the poster is in, nobody gets past the first counter. -/
theorem gathered_table : ∀ p : Pc, single true .ready p = true → joined p = true →
    p ∈ [Pc.start, .wait1] := by
  decide

/-- The processors that are all in before the poster are together, and late. -/
theorem gathered_late : ∀ b : Pc × Pc, b.1 ∈ [Pc.start, .wait1] → b.2 ∈ [Pc.start, .wait1] →
    late true b.1 = true ∧ together b.1 b.2 = true := by
  decide +kernel

/-- The last of the other processors comes, and the poster is still outside. -/
theorem unattended_of_late (hInv : s.Inv) (hLate : ¬ o.Early s) (hStep : s.step o = some s') :
    s'.Unattended := by
  cases o with
  | post op => exact absurd trivial hLate
  | enter i => exact absurd trivial hLate
  | move i => exact absurd trivial hLate
  | clock i =>
    obtain ⟨hReady, hNone⟩ := Classical.not_imp.mp hLate
    obtain ⟨hPending, -⟩ := hInv.ready hReady
    rw [step] at hStep
    split at hStep
    · rename_i hPc
      have hSome : s.postedop.isSome = true := hPending
      rw [if_pos hSome] at hStep
      obtain rfl := Option.some.inj hStep
      -- all have come to the first counter, and the poster is in none of them
      have hAll : ∀ j, Function.update s.pc i .start j ∈ [Pc.start, .wait1] := by
        intro j
        by_cases hj : j = i
        · rw [hj, Function.update_self]
          exact List.mem_cons_self
        · rw [Function.update_of_ne hj]
          have hSingle := hInv.single j
          rw [hPending, who_ready.mpr hReady] at hSingle
          refine gathered_table _ hSingle ?_
          cases hJoined : joined (s.pc j) with
          | true => rfl
          | false => exact absurd ⟨j, hj, hJoined⟩ hNone
      have hTable : ∀ j k, _ := fun j k =>
        gathered_late (Function.update s.pc i .start j, Function.update s.pc i .start k) (hAll j) (hAll k)
      constructor
      · exact hReady
      · show s.bar1 = (countAt inBar1 (Function.update s.pc i .start) : Int)
        rw [countAt_goto, hPc, hInv.bar1]
        simp [inBar1]
      · show s.bar2 = (countAt inBar2 (Function.update s.pc i .start) : Int)
        rw [countAt_goto, hPc, hInv.bar2]
        simp [inBar2]
      · intro j
        show Meeting.late s.pending (Function.update s.pc i .start j) = true
        rw [hPending]
        exact (hTable j j).1
      · exact fun j k _ => (hTable j k).2
    · cases hStep

/-! ## What cannot be mended -/

/-- The poster does not get through. -/
def Lost (s : Meeting n α) : Prop := s.Inv ∧ s.Stuck ∨ s.Unattended ∨ ∃ p, s.Alone p

/-- A meeting that is lost stays lost. -/
theorem lost_step (hn : 0 < n) (h : s.Lost) (hStep : s.step o = some s') : s'.Lost := by
  rcases h with ⟨hInv, hStuck⟩ | hUnattended | ⟨p, hAlone⟩
  · refine Or.inl ⟨step_inv hn hInv ?_ hStep, stuck_step hInv hStuck hStep⟩
    -- the one that waits for the others to go has not come
    obtain ⟨-, b, -, hb⟩ := hStuck
    cases o with
    | post op => trivial
    | enter i => trivial
    | move i => trivial
    | clock i =>
      refine fun _ => ⟨b, fun hEq => ?_, by rw [hb]; rfl⟩
      rw [step, if_neg (by rw [← hEq, hb]; decide)] at hStep
      cases hStep
  · exact Or.inr (unattended_step hUnattended hStep)
  · exact Or.inr (Or.inr ⟨p, alone_step hAlone hStep⟩)

/-- Who is late with an operation posted has come in. -/
theorem late_joined : ∀ p : Pc, late true p = true → joined p = true := by
  decide

/-- None of the places of a poster alone is one of the invariant without an operation. -/
theorem alone_base : ∀ p : Pc, p ∈ [Pc.start, .wait1, .write, .fault] → base false p = false := by
  decide

/-- What is lost is not free to go on. -/
theorem Lost.not_free (h : s.Lost) : ¬ (s.Inv ∧ ¬ s.Stuck) := by
  rintro ⟨hInv, hFree⟩
  rcases h with ⟨-, hStuck⟩ | hUnattended | ⟨p, hAlone⟩
  · exact hFree hStuck
  · obtain ⟨hPending, i, hOut⟩ := hInv.ready hUnattended.poster
    have hLate := hUnattended.late i
    rw [hPending] at hLate
    rw [late_joined _ hLate] at hOut
    cases hOut
  · have hBase := hInv.base p
    unfold pending at hBase
    rw [hAlone.postedop] at hBase
    have hNot := alone_base _ hAlone.pc
    rw [show base false (s.pc p) = true from hBase] at hNot
    cases hNot

/-- And it does not come to an end. -/
theorem Lost.not_quiet (h : s.Lost) : ¬ s.Quiet := by
  intro hQuiet
  rcases h with ⟨-, i, -, hWait, -⟩ | hUnattended | ⟨p, hAlone⟩
  · rw [hQuiet.pc i] at hWait
    cases hWait
  · have hPoster := hUnattended.poster
    rw [hQuiet.poster] at hPoster
    cases hPoster
  · have hPoster := hAlone.poster
    rw [hQuiet.poster] at hPoster
    cases hPoster

/-- One step tells. -/
theorem free_step (hn : 0 < n) (hInv : s.Inv) (hFree : ¬ s.Stuck) (hStep : s.step o = some s') :
    (s'.Inv ∧ ¬ s'.Stuck ∨ s'.Lost) ∧ (s'.Inv ∧ ¬ s'.Stuck ↔ o.Early s ∧ o.Apart s) := by
  by_cases hEarly : o.Early s
  · have hNext := step_inv hn hInv hEarly hStep
    have hIff := stuck_iff_apart hInv hFree hStep
    refine ⟨?_, fun h => ⟨hEarly, hIff.mp h.2⟩, fun h => ⟨hNext, hIff.mpr h.2⟩⟩
    by_cases hStuck : s'.Stuck
    · exact Or.inr (Or.inl ⟨hNext, hStuck⟩)
    · exact Or.inl ⟨hNext, hStuck⟩
  · have hLost : s'.Lost := Or.inr (Or.inl (unattended_of_late hInv hEarly hStep))
    exact ⟨Or.inr hLost, fun h => absurd h hLost.not_free, fun h => absurd h.1 hEarly⟩

/-! ## The way to the end -/

/-- The steps that a processor has before it. -/
def weight (pending : Bool) : Pc → Nat
  | .idle => if pending = true then 10 else 0
  | .start => 9
  | .wait1 => 8
  | .write => 7
  | .sync => 6
  | .wait2 => 5
  | .clear => 4
  | .leave => 3
  | .wait3 => if pending = true then 12 else 2
  | .down => if pending = true then 11 else 1
  | .fault => 0

def toGo (s : Meeting n α) : Nat := total (weight s.pending) s.pc

/-- Each step is one less to go. -/
theorem weight_next : ∀ b : Bool × Pc, base b.1 b.2 = true → (b.2 = .idle → b.1 = true) →
    weight b.1 b.2.next < weight b.1 b.2 := by
  decide

/-- An operation is not set again on the way. -/
theorem toGo_lt (hInv : s.Inv) (hIdle : s.pc i = .idle → s.pending = true)
    (hPc : s'.pc = Function.update s.pc i (s.pc i).next)
    (hPending : s'.pending = s.pending ∨ s'.pending = false) : s'.toGo < s.toGo := by
  have hLess : weight s.pending (s.pc i).next < weight s.pending (s.pc i) :=
    weight_next (s.pending, s.pc i) (hInv.base i) hIdle
  have hTotal : total (weight s.pending) (Function.update s.pc i (s.pc i).next) + _ = _ := total_update
  have hMoved : total (weight s.pending) s'.pc < s.toGo := by
    rw [hPc]
    unfold toGo
    omega
  rcases hPending with hSame | hGone
  · unfold toGo at *
    rw [hSame]
    exact hMoved
  -- without an operation the processors that are outside weigh nothing any more
  · refine Nat.lt_of_le_of_lt ?_ hMoved
    unfold toGo
    rw [hGone]
    refine total_le fun p => ?_
    cases s.pending <;> cases p <;> decide

/-- A processor that the counters let go on has a step. -/
theorem Inv.can_move (hInv : s.Inv) (hPc : s.pc i ≠ .idle)
    (hOpens : ∀ j, (s.pc i).opens (s.pc j) = true) : ∃ s', s.move i = some s' := by
  have hBase := hInv.base i
  unfold move
  cases hPlace : s.pc i with
  | idle => exact absurd hPlace hPc
  | fault =>
    rw [hPlace] at hBase
    cases hBase
  | start => exact ⟨_, rfl⟩
  | wait1 =>
    rw [hPlace] at hOpens
    -- the counter is what the invariant says, and then the test of the loop is left
    have hAll : countAt inBar1 s.pc = n := countAt_eq_all.mpr hOpens
    exact ⟨_, if_neg (by rw [hInv.bar1]; omega)⟩
  | write =>
    cases s.postedop with
    | none => exact ⟨_, rfl⟩
    | some op => exact ⟨_, rfl⟩
  | sync => exact ⟨_, rfl⟩
  | wait2 =>
    rw [hPlace] at hOpens
    have hAll : countAt inBar2 s.pc = n := countAt_eq_all.mpr hOpens
    exact ⟨_, if_neg (by rw [hInv.bar2]; omega)⟩
  | clear => exact ⟨_, rfl⟩
  | leave => exact ⟨_, rfl⟩
  | wait3 =>
    rw [hPlace] at hOpens
    -- the third loop waits for the first counter to be 0 again
    have hNone : countAt inBar1 s.pc = 0 := by
      refine countAt_eq_none.mpr fun j => ?_
      have hOut : (!inBar1 (s.pc j)) = true := hOpens j
      rw [Bool.not_eq_true'] at hOut
      exact hOut
    exact ⟨_, if_neg (by rw [hInv.bar1]; omega)⟩
  | down => exact ⟨_, rfl⟩

/-- A step on the way to the end. -/
def Nearer (s : Meeting n α) : Prop :=
  ∃ o s', (o.Early s ∧ o.Apart s) ∧ s.step o = some s' ∧ s'.posted = s.posted ∧ s'.toGo < s.toGo

/-- A processor that can go on and leaves nobody stuck brings the end nearer. -/
theorem Inv.nearer_move (hInv : s.Inv) (hPc : s.pc i ≠ .idle)
    (hOpens : ∀ j, (s.pc i).opens (s.pc j) = true)
    (hApart : s.pc i = .start → ∀ j, s.pc j ≠ .wait3) : s.Nearer := by
  obtain ⟨s', hMove⟩ := hInv.can_move hPc hOpens
  have hMoved := hInv.moved hMove
  refine ⟨.move i, s', ⟨trivial, hApart⟩, hMove, hMoved.posted,
    toGo_lt hInv (fun hIdle => absurd hIdle hPc) hMoved.pc ?_⟩
  rw [hMoved.pending]
  cases (s.pc i != .clear)
  · exact Or.inr (Bool.and_false _)
  · exact Or.inl (Bool.and_true _)

/-- A processor that has to come can do so. -/
theorem Inv.nearer_idle (hInv : s.Inv) (hPc : s.pc i = .idle) (hIn : ∀ j, s.pc j ∈ [Pc.idle, .wait1])
    (hQuiet : ¬ s.Quiet) : s.Nearer := by
  cases hPoster : s.poster with
  | nobody =>
    -- nobody is in mtrrop
    refine absurd ⟨fun j => ?_, ?_, hPoster⟩ hQuiet
    · have hSingle := hInv.single j
      rw [who_nobody.mpr hPoster, hInv.nobody hPoster] at hSingle
      have hAway := away_of_nobody _ hSingle
      have hPlace := hIn j
      rcases List.mem_pair.mp hPlace with hIdle | hWait
      · exact hIdle
      · rw [hWait] at hAway
        cases hAway
    · have hNone := hInv.nobody hPoster
      unfold pending at hNone
      exact Option.not_isSome_iff_eq_none.mp (by rw [hNone]; exact Bool.false_ne_true)
  | ready =>
    obtain ⟨hPending, -⟩ := hInv.ready hPoster
    refine ⟨.enter i, _, ⟨trivial, trivial⟩, if_pos ⟨hPoster, hPc⟩, rfl, ?_⟩
    refine toGo_lt (i := i) hInv (fun _ => hPending) ?_ (Or.inl rfl)
    rw [hPc]
    rfl
  | inside p =>
    -- the poster waits, so the operation is still there
    have hMine : s.mine p = true := by
      unfold mine
      rw [who_this.mpr hPoster]
      rfl
    have hInside := hInv.inside hMine
    have hWait : s.pc p = .wait1 := by
      rcases List.mem_pair.mp (hIn p) with hIdle | hWait
      · rw [hIdle] at hInside
        cases hInside
      · exact hWait
    have hBase := hInv.base p
    rw [hWait] at hBase
    have hPending : s.pending = true := by
      cases hNone : s.pending with
      | true => rfl
      | false =>
        rw [hNone] at hBase
        cases hBase
    refine ⟨.clock i, s.goto i .start, ⟨?_, trivial⟩, ?_, rfl, ?_⟩
    · intro hReady
      rw [hPoster] at hReady
      cases hReady
    · rw [step, if_pos hPc]
      exact congrArg some (if_pos hPending)
    · refine toGo_lt (i := i) hInv (fun _ => hPending) ?_ (Or.inl rfl)
      rw [hPc]
      rfl

/-- Places that no counter guards. -/
def unguarded : Pc → Bool
  | .write | .sync | .clear | .leave | .down => true
  | _ => false

/-- The steps without a wait can always be taken. -/
theorem opens_unguarded : ∀ b : Pc × Pc, unguarded b.1 = true → b.1.opens b.2 = true := by
  decide +kernel

/-- When all those steps are done, everybody is out, comes in or waits. -/
theorem resting : ∀ b : Bool × Pc, base b.1 b.2 = true → unguarded b.2 = false →
    b.2 ∈ [Pc.idle, .start, .wait1, .wait2, .wait3] := by
  decide

/-- With a processor at the second counter nobody is outside. -/
theorem wait2_table : ∀ b : Bool × Bool × Pc, pair b.1 b.2.1 .wait2 b.2.2 = true →
    b.2.2 ≠ .idle ∧ b.2.2 ≠ .start := by
  decide

/-- Behind the first counter all are counted in the second one. -/
theorem second_of_rest : ∀ p : Pc, p ∈ [Pc.idle, .start, .wait1, .wait2, .wait3] →
    p ≠ .idle ∧ p ≠ .start → p ≠ .wait1 → inBar2 p = true := by
  decide

/-- And past the second one all have left the first. -/
theorem gone_of_rest : ∀ p : Pc, p ∈ [Pc.idle, .start, .wait1, .wait2, .wait3] →
    p ≠ .wait1 → p ≠ .wait2 → (!inBar1 p) = true := by
  decide

/-- Without one behind the counters all are out or wait for the others. -/
theorem first_of_rest : ∀ p : Pc, p ∈ [Pc.idle, .start, .wait1, .wait2, .wait3] →
    p ≠ .start → p ≠ .wait3 → p ≠ .wait2 → p ∈ [Pc.idle, .wait1] := by
  decide

/-- Without one that waits to go, all that are in are counted. -/
theorem come_of_rest : ∀ p : Pc, p ∈ [Pc.idle, .start, .wait1, .wait2, .wait3] →
    p ≠ .idle ∧ p ≠ .start → p ≠ .wait3 → inBar1 p = true := by
  decide

/-- So they wait on the second counter. -/
theorem wait2_of_rest : ∀ p : Pc, p ∈ [Pc.idle, .start, .wait1, .wait2, .wait3] →
    p ≠ .idle ∧ p ≠ .start → p ≠ .wait1 → p ≠ .wait3 → p = .wait2 := by
  decide

/-- A processor comes nearer to the end, unless two wait for each other. -/
theorem nearer (hn : 0 < n) (hInv : s.Inv) (hFree : ¬ s.Stuck) (hQuiet : ¬ s.Quiet) : s.Nearer := by
  by_cases hBusy : ∃ i, unguarded (s.pc i) = true
  · obtain ⟨i, hi⟩ := hBusy
    refine hInv.nearer_move (i := i) ?_ (fun j => opens_unguarded (s.pc i, s.pc j) hi) ?_
    · intro hIdle
      rw [hIdle] at hi
      cases hi
    · intro hStart
      rw [hStart] at hi
      cases hi
  · have hRest : ∀ i, s.pc i ∈ [Pc.idle, .start, .wait1, .wait2, .wait3] := by
      intro i
      refine resting (s.pending, s.pc i) (hInv.base i) ?_
      cases hPlace : unguarded (s.pc i) with
      | true => exact absurd ⟨i, hPlace⟩ hBusy
      | false => rfl
    -- what a processor at the second counter says of the others
    have hSecond : ∀ b, s.pc b = .wait2 → ∀ j, s.pc j ≠ .idle ∧ s.pc j ≠ .start := by
      intro b hb j
      by_cases hjb : j = b
      · rw [hjb, hb]
        decide
      · have hPair := hInv.pair b j (Ne.symm hjb)
        rw [hb] at hPair
        exact wait2_table (s.pending, s.mine b, s.pc j) hPair
    by_cases hThird : ∃ a, s.pc a = .wait3
    · obtain ⟨a, ha⟩ := hThird
      have hNoFirst : ∀ j, s.pc j ≠ .wait1 := fun j hj => hFree ⟨j, a, hj, ha⟩
      by_cases hSome : ∃ b, s.pc b = .wait2
      · -- the others have got to the second counter
        obtain ⟨b, hb⟩ := hSome
        refine hInv.nearer_move (i := b) (by rw [hb]; decide) (fun j => ?_) (by rw [hb]; nofun)
        rw [hb]
        exact second_of_rest _ (hRest j) (hSecond b hb j) (hNoFirst j)
      · -- all that were in have gone
        refine hInv.nearer_move (i := a) (by rw [ha]; decide) (fun j => ?_) (by rw [ha]; nofun)
        rw [ha]
        exact gone_of_rest _ (hRest j) (hNoFirst j) fun hj => hSome ⟨j, hj⟩
    · have hNoThird : ∀ j, s.pc j ≠ .wait3 := fun j hj => hThird ⟨j, hj⟩
      by_cases hComing : ∃ i, s.pc i = .start
      · obtain ⟨i, hi⟩ := hComing
        exact hInv.nearer_move (i := i) (by rw [hi]; decide) (fun j => by rw [hi]; rfl)
          fun _ => hNoThird
      · have hNoStart : ∀ j, s.pc j ≠ .start := fun j hj => hComing ⟨j, hj⟩
        by_cases hIdle : ∃ i, s.pc i = .idle
        · obtain ⟨i, hi⟩ := hIdle
          refine hInv.nearer_idle hi (fun j => ?_) hQuiet
          exact first_of_rest _ (hRest j) (hNoStart j) (hNoThird j) fun hj => (hSecond j hj i).1 hi
        · have hNoIdle : ∀ j, s.pc j ≠ .idle := fun j hj => hIdle ⟨j, hj⟩
          -- everybody is at the first counter or at the second
          by_cases hFirst : ∃ a, s.pc a = .wait1
          · obtain ⟨a, ha⟩ := hFirst
            refine hInv.nearer_move (i := a) (by rw [ha]; decide) (fun j => ?_) (by rw [ha]; nofun)
            rw [ha]
            exact come_of_rest _ (hRest j) ⟨hNoIdle j, hNoStart j⟩ (hNoThird j)
          · have hAll : ∀ j, inBar2 (s.pc j) = true := fun j =>
              second_of_rest _ (hRest j) ⟨hNoIdle j, hNoStart j⟩ fun hj => hFirst ⟨j, hj⟩
            have hAt : s.pc ⟨0, hn⟩ = .wait2 := wait2_of_rest _ (hRest _) ⟨hNoIdle _, hNoStart _⟩
              (fun hj => hFirst ⟨_, hj⟩) (hNoThird _)
            refine hInv.nearer_move (i := ⟨0, hn⟩) (by rw [hAt]; decide) (fun j => ?_)
              (by rw [hAt]; nofun)
            rw [hAt]
            exact hAll j

/-! ## Whole runs -/

/-- At boot nobody waits. -/
theorem boot_free : ¬ (boot : Meeting n α).Stuck := by
  rintro ⟨_, _, hFirst, -⟩
  cases hFirst

/-- Every run ends in a state from which all can go on, or in one where the poster is lost. -/
theorem free_iff {os : List (MeetOp n α)} (hn : 0 < n) (hRun : Trace.run step boot os = some s) :
    (s.Inv ∧ ¬ s.Stuck ∨ s.Lost) ∧
    (s.Inv ∧ ¬ s.Stuck ↔ Trace.Always step (fun s o => o.Early s ∧ o.Apart s) boot os) := by
  have hEither : ∀ (s : Meeting n α) o s', s.Inv ∧ ¬ s.Stuck ∨ s.Lost → s.step o = some s' →
      s'.Inv ∧ ¬ s'.Stuck ∨ s'.Lost := by
    intro s o s' h hStep
    rcases h with hGood | hLost
    · exact (free_step hn hGood.1 hGood.2 hStep).1
    · exact Or.inr (lost_step hn hLost hStep)
  have hStart : (boot : Meeting n α).Inv ∧ ¬ (boot : Meeting n α).Stuck := ⟨boot_inv, boot_free⟩
  refine ⟨Trace.run_keeps (I := fun s => s.Inv ∧ ¬ s.Stuck ∨ s.Lost) hEither (Or.inl hStart) hRun, ?_⟩
  exact Trace.last_iff_always (I := fun s => s.Inv ∧ ¬ s.Stuck ∨ s.Lost)
    (P := fun s => s.Inv ∧ ¬ s.Stuck) (fun s o s' hs _ hMove => hEither s o s' hs hMove)
    (fun s o s' _ hMove hGood => (free_step hn hGood.1 hGood.2 hMove).2)
    (fun s o s' hs hMove hNot => (lost_step hn (hs.resolve_left hNot) hMove).not_free)
    (Or.inl hStart) hStart Trace.always_true hRun

/-- Where nobody is in `mtrrop`, everything that was posted is written everywhere. -/
theorem Quiet.wrote (hQuiet : s.Quiet) (hInv : s.Inv) (i : Fin n) : s.wrote i = s.posted := by
  rw [hInv.wrote i, hQuiet.pc i, if_neg]
  show ¬ s.pending = true
  unfold pending
  rw [hQuiet.postedop]
  exact Bool.false_ne_true

/-- **When the meeting ends.** A run can be brought to an end, with all operations in the
registers of all processors, exactly when the clock never brought in all the processors before the
poster, and no processor came to the first counter while another one was still to leave it. -/
theorem mtrrop_completes {os : List (MeetOp n α)} (hn : 0 < n)
    (hRun : Trace.run step boot os = some s) :
    (∃ os' t, Trace.run step s os' = some t ∧ t.Quiet ∧ t.posted = s.posted ∧
      ∀ i, t.wrote i = t.posted) ↔
    Trace.Always step (fun s o => o.Early s ∧ o.Apart s) boot os := by
  obtain ⟨hEither, hIff⟩ := free_iff hn hRun
  rw [← hIff]
  constructor
  -- a run that broke the condition has lost a processor, and stays so
  · rintro ⟨os', t, hRest, hQuiet, -⟩
    refine hEither.resolve_right fun hLost => ?_
    exact (Trace.run_keeps (fun _ _ _ hs hMove => lost_step hn hs hMove) hLost hRest).not_quiet hQuiet
  -- as long as it is not at rest some step that keeps the condition brings it nearer
  · rintro ⟨hInv, hFree⟩
    have hReach : ∃ os' t, Trace.Always step (fun _ _ => True) s os' ∧
        Trace.run step s os' = some t ∧ (t.Quiet ∧ t.Inv ∧ t.posted = s.posted) := by
      refine Trace.run_reaches (I := fun t => t.Inv ∧ ¬ t.Stuck ∧ t.posted = s.posted) toGo
        (fun t ht hGoal => ?_) ⟨hInv, hFree, rfl⟩
      obtain ⟨hKept, hStill, hSame⟩ := ht
      have hNot : ¬ t.Quiet := fun hQuiet => hGoal ⟨hQuiet, hKept, hSame⟩
      obtain ⟨o, t', hOk, hMove, hPosted, hLess⟩ := nearer hn hKept hStill hNot
      obtain ⟨hNext, hOn⟩ := (free_step hn hKept hStill hMove).2.mpr hOk
      exact ⟨o, t', trivial, hMove, ⟨hNext, hOn, hPosted.trans hSame⟩, hLess⟩
    obtain ⟨os', t, -, hRest, hQuiet, hEnd, hPosted⟩ := hReach
    exact ⟨os', t, hRest, hQuiet, hPosted, hQuiet.wrote hEnd⟩

/-- The second processor has come, and neither has written yet. -/
theorem mtrrop_completes_pair : ∃ s : Meeting 2 Nat,
    Trace.run step boot [.post 7, .enter 0, .clock 1, .move 0] = some s ∧
    ∃ os' t, Trace.run step s os' = some t ∧ t.Quiet ∧ t.posted = s.posted ∧
      ∀ i, t.wrote i = t.posted := by
  have hRun : ∃ s : Meeting 2 Nat,
      Trace.run step boot [.post 7, .enter 0, .clock 1, .move 0] = some s := ⟨_, rfl⟩
  obtain ⟨s, hs⟩ := hRun
  refine ⟨s, hs, (mtrrop_completes (by decide) hs).mpr ?_⟩
  refine ⟨⟨trivial, trivial⟩, fun s₁ h₁ => ⟨⟨trivial, trivial⟩, fun s₂ h₂ => ?_⟩⟩
  obtain rfl := Option.some.inj h₁
  obtain rfl := Option.some.inj h₂
  refine ⟨⟨nofun, trivial⟩, fun s₃ h₃ => ⟨⟨trivial, fun _ => ?_⟩, fun _ _ => trivial⟩⟩
  obtain rfl := Option.some.inj h₃
  decide

end Meeting

end Glendum
