import Glendum.Lib.Clients
import Glendum.Lib.Trace

/-!
# Glendum — the scan-code device

`kbinopen` and `kbinclose` of `devkbin.c`. Clients walk channels to the two files of
the device, ask once for them to be opened, and close every channel in the end. A
stat is a walk and a close.

`kbin` is exclusive and `kbinbusy` tells of its one opener in every run without two
things: a `devopen` that fails after the device was claimed, and the close of a
channel that does not have `kbin` open while another one has. `consclose` looks at
`COPEN` for a file of this kind; `kbinclose` does not.

* `KbinInv.step` — one operation;
* `kbin_exclusive_exact` — the runs in which the device is exclusive.
-/

namespace Glendum

open Clients Trace

/-! ## The device's functions -/

/-- The files of the device, by `qid.path`. -/
inductive KbinQid
  | Qdir | Qkbd
deriving DecidableEq

structure KbinChan where
  qid   : KbinQid
  copen : Bool := false
  tried : Bool := false
deriving DecidableEq

/-- What `kbinopen` raises. -/
inductive KbinErr
  | Eperm
  | Einuse
  /-- the error of `devopen` -/
  | refused
deriving DecidableEq

/-- `eve` and `granted` are the answers of `iseve` and `devopen`. -/
def kbinopen (busy : Nat) (c : KbinChan) (eve granted : Bool) : Nat × KbinChan × Option KbinErr :=
  if !eve then (busy, c, some .Eperm)
  else if c.qid = .Qkbd ∧ busy ≠ 0 then (busy, c, some .Einuse)
  else
    let busy := if c.qid = .Qkbd then busy + 1 else busy
    if granted then (busy, { c with copen := true }, none) else (busy, c, some .refused)

def kbinclose (busy : Nat) (c : KbinChan) : Nat := if c.qid = .Qkbd then 0 else busy

/-! ## Clients -/

structure KbinSys where
  kbinbusy : Nat := 0
  chans    : List KbinChan := []

inductive KbinOp
  | walk (q : KbinQid)
  /-- an open of channel `i`, with the answers of `iseve` and `devopen` -/
  | kbinopen (i : Nat) (eve granted : Bool)
  | kbinclose (i : Nat)

def KbinSys.step (s : KbinSys) : KbinOp → Option KbinSys
  | .walk q => some { s with chans := s.chans ++ [{ qid := q }] }
  | .kbinopen i eve granted =>
    match s.chans[i]? with
    | none => none
    | some c =>
      -- the kernel asks the device once for a channel
      if c.tried then none
      else
        let r := kbinopen s.kbinbusy c eve granted
        some { kbinbusy := r.1, chans := s.chans.set i { r.2.1 with tried := true } }
  | .kbinclose i =>
    match s.chans[i]? with
    | none => none
    -- also for a channel that never was open
    | some c => some { kbinbusy := kbinclose s.kbinbusy c, chans := s.chans.eraseIdx i }

/-- The channel has `kbin` open. -/
def onKbin (c : KbinChan) : Bool := c.copen && decide (c.qid = .Qkbd)

/-- At most one channel has `kbin` open, and `kbinbusy` tells whether one has. -/
structure KbinSys.Exclusive (s : KbinSys) : Prop where
  once : count onKbin s.chans ≤ 1
  busy : s.kbinbusy ≠ 0 ↔ count onKbin s.chans = 1

/-- `devopen` does not fail once `kbin` is claimed, and while a channel has `kbin`
open, no channel that has not is closed on it. -/
def KbinSys.Orderly (s : KbinSys) : KbinOp → Prop
  | .walk _ => True
  | .kbinopen i eve granted =>
    ∀ c, s.chans[i]? = some c → c.qid = .Qkbd → s.kbinbusy = 0 → eve = true → granted = true
  | .kbinclose i =>
    ∀ c, s.chans[i]? = some c → c.qid = .Qkbd → c.copen = false → count onKbin s.chans = 0

/-! ## One operation -/

section

variable {s s' : KbinSys} {c : KbinChan} {i : Nat} {eve granted : Bool} {o : KbinOp}

/-- The ways an open can go. -/
theorem kbinopen_cases (busy : Nat) (c : KbinChan) (eve granted : Bool) :
    ((∃ e, kbinopen busy c eve granted = (busy, c, some e)) ∧
      (eve = false ∨ c.qid = .Qkbd ∧ busy ≠ 0 ∨ c.qid ≠ .Qkbd)) ∨
    (c.qid ≠ .Qkbd ∧ kbinopen busy c eve granted = (busy, { c with copen := true }, none)) ∨
    -- `kbin` is free and claimed
    (c.qid = .Qkbd ∧ busy = 0 ∧ eve = true ∧ kbinopen busy c eve granted =
      (1, if granted then { c with copen := true } else c,
        if granted then none else some .refused)) := by
  unfold kbinopen
  cases eve with
  | false => exact Or.inl ⟨⟨.Eperm, rfl⟩, Or.inl rfl⟩
  | true =>
    by_cases hQid : c.qid = .Qkbd
    · by_cases hFree : busy = 0
      · subst hFree
        refine Or.inr (Or.inr ⟨hQid, rfl, rfl, ?_⟩)
        cases granted <;> simp [hQid]
      · exact Or.inl ⟨⟨.Einuse, by simp [hQid, hFree]⟩, Or.inr (Or.inl ⟨hQid, hFree⟩)⟩
    · cases granted with
      | false => exact Or.inl ⟨⟨.refused, by simp [hQid]⟩, Or.inr (Or.inr hQid)⟩
      | true => exact Or.inr (Or.inl ⟨hQid, by simp [hQid]⟩)

/-- `Exclusive`, and no channel is open before it was asked to be. -/
structure KbinInv (s : KbinSys) : Prop extends s.Exclusive where
  untried : ∀ c ∈ s.chans, c.tried = false → c.copen = false

theorem kbinInv_boot : KbinInv {} where
  once := Nat.zero_le _
  busy := by simp
  untried := by simp

theorem KbinInv.of_walk (h : KbinInv s) (q : KbinQid) :
    KbinInv { s with chans := s.chans ++ [{ qid := q }] } := by
  have hSame : count onKbin (s.chans ++ [{ qid := q }]) = count onKbin s.chans := by simp [onKbin]
  refine ⟨⟨?_, ?_⟩, ?_⟩
  · rw [hSame]
    exact h.once
  · rw [hSame]
    exact h.busy
  · exact fresh_join h.untried rfl

/-- The channel that is opened was not counted before. -/
theorem KbinInv.count_turn (h : KbinInv s) (hc : s.chans[i]? = some c) (hTried : c.tried = false)
    (c' : KbinChan) : count onKbin (s.chans.set i c') = count onKbin s.chans + (onKbin c').toNat := by
  refine count_first h.untried hc hTried (fun hNot => ?_) c'
  rw [onKbin, hNot, Bool.false_and]

theorem KbinInv.free (h : KbinInv s) (hFree : s.kbinbusy = 0) : count onKbin s.chans = 0 := by
  have hOnce := h.once
  have hNone : ¬ count onKbin s.chans = 1 := fun hOne => h.busy.mpr hOne hFree
  omega

theorem KbinInv.of_kbinopen (h : KbinInv s) (hc : s.chans[i]? = some c) (hTried : c.tried = false)
    (hOk : s.Orderly (.kbinopen i eve granted)) :
    KbinInv { kbinbusy := (kbinopen s.kbinbusy c eve granted).1,
              chans := s.chans.set i
                { (kbinopen s.kbinbusy c eve granted).2.1 with tried := true } } := by
  have hNotOpen := h.untried c (List.mem_of_getElem? hc) hTried
  have hCount := fun c' => h.count_turn hc hTried c'
  rcases kbinopen_cases s.kbinbusy c eve granted with
    ⟨⟨e, hR⟩, -⟩ | ⟨hQid, hR⟩ | ⟨hQid, hFree, hEve, hR⟩ <;> rw [hR]
  · -- refused before the claim
    refine ⟨⟨?_, ?_⟩, fresh_turn h.untried rfl⟩
    · simpa [hCount, onKbin, hNotOpen] using h.once
    · simpa [hCount, onKbin, hNotOpen] using h.busy
  · refine ⟨⟨?_, ?_⟩, fresh_turn h.untried rfl⟩
    · simpa [hCount, onKbin, hQid] using h.once
    · simpa [hCount, onKbin, hQid] using h.busy
  · -- the claim is followed by an open
    have hGranted := hOk c hc hQid hFree hEve
    subst hGranted
    refine ⟨⟨?_, ?_⟩, fresh_turn h.untried rfl⟩
    · simp [hCount, onKbin, hQid, h.free hFree]
    · simp [hCount, onKbin, hQid, h.free hFree]

theorem KbinInv.of_kbinclose (h : KbinInv s) (hc : s.chans[i]? = some c)
    (hOk : s.Orderly (.kbinclose i)) :
    KbinInv { kbinbusy := kbinclose s.kbinbusy c, chans := s.chans.eraseIdx i } := by
  have hLeave := count_leave (q := onKbin) hc
  have hOnce := h.once
  by_cases hQid : c.qid = .Qkbd
  · -- nobody has `kbin` open behind a close of it
    have hNone : count onKbin (s.chans.eraseIdx i) = 0 := by
      cases hOpen : c.copen with
      | true =>
        -- it was the opener
        have hYes : onKbin c = true := by simp [onKbin, hOpen, hQid]
        rw [hYes, Bool.toNat_true] at hLeave
        omega
      | false =>
        have hNo := hOk c hc hQid hOpen
        omega
    refine ⟨⟨?_, ?_⟩, fresh_leave h.untried⟩
    · rw [hNone]
      exact Nat.zero_le _
    · simp [kbinclose, hQid, hNone]
  · have hSame : count onKbin (s.chans.eraseIdx i) = count onKbin s.chans := by
      simpa [onKbin, hQid] using hLeave
    refine ⟨⟨?_, ?_⟩, fresh_leave h.untried⟩
    · rw [hSame]
      exact hOnce
    · simp only [kbinclose, if_neg hQid, hSame]
      exact h.busy

/-- An open is the first one of its channel. -/
theorem KbinSys.step_kbinopen (hStep : s.step (.kbinopen i eve granted) = some s') :
    ∃ c, s.chans[i]? = some c ∧ c.tried = false ∧
      s' = { kbinbusy := (kbinopen s.kbinbusy c eve granted).1,
             chans := s.chans.set i
               { (kbinopen s.kbinbusy c eve granted).2.1 with tried := true } } := by
  cases hc : s.chans[i]? with
  | none => simp [KbinSys.step, hc] at hStep
  | some c =>
    simp only [KbinSys.step, hc, Option.ite_none_left_eq_some, Bool.not_eq_true,
      Option.some.injEq] at hStep
    exact ⟨c, rfl, hStep.1, hStep.2.symm⟩

theorem KbinInv.step (h : KbinInv s) (hOk : s.Orderly o) (hStep : s.step o = some s') :
    KbinInv s' := by
  cases o with
  | walk q =>
    obtain rfl := Option.some.inj hStep
    exact h.of_walk q
  | kbinopen i eve granted =>
    obtain ⟨c, hc, hTried, rfl⟩ := KbinSys.step_kbinopen hStep
    exact h.of_kbinopen hc hTried hOk
  | kbinclose i =>
    cases hc : s.chans[i]? with
    | none => simp [KbinSys.step, hc] at hStep
    | some c =>
      simp only [KbinSys.step, hc, Option.some.injEq] at hStep
      subst hStep
      exact h.of_kbinclose hc hOk

/-- The two operations that break the device do it at once: a failed `devopen` leaves
it busy with no opener, and the stray close leaves an opener of a free device. -/
theorem KbinInv.broken (h : KbinInv s) (hBad : ¬ s.Orderly o) (hStep : s.step o = some s') :
    ¬ s'.Exclusive := by
  cases o with
  | walk q => exact absurd trivial hBad
  | kbinopen i eve granted =>
    simp only [KbinSys.Orderly, not_forall, Bool.not_eq_true] at hBad
    obtain ⟨c, hc, hQid, hFree, rfl, rfl⟩ := hBad
    obtain ⟨c', hc', hTried, rfl⟩ := KbinSys.step_kbinopen hStep
    obtain rfl : c = c' := Option.some.inj (hc.symm.trans hc')
    intro hExcl
    -- the claim stays, but the channel did not come to be open
    have hCount := hExcl.busy.mp (by simp [kbinopen, hQid, hFree])
    rw [h.count_turn hc hTried, h.free hFree] at hCount
    have hNotOpen := h.untried c (List.mem_of_getElem? hc) hTried
    simp [kbinopen, hQid, hFree, onKbin, hNotOpen] at hCount
  | kbinclose i =>
    simp only [KbinSys.Orderly, not_forall] at hBad
    obtain ⟨c, hc, hQid, hOpen, hSome⟩ := hBad
    simp only [KbinSys.step, hc, Option.some.injEq] at hStep
    subst hStep
    intro hExcl
    -- the opener is still there when `kbinbusy` goes to 0
    have hLeave := count_leave (q := onKbin) hc
    rw [onKbin, hOpen, Bool.false_and, Bool.toNat_false, Nat.add_zero] at hLeave
    have hOnce := h.once
    refine hExcl.busy.mpr ?_ (by simp [kbinclose, hQid])
    simp only
    omega

end

/-! ## Runs -/

/-- `kbin` is exclusive all the time exactly in the runs without a failure after the
claim and without a stray close. -/
theorem kbin_exclusive_exact {os : List KbinOp} {t : KbinSys}
    (h : run KbinSys.step {} os = some t) :
    Throughout KbinSys.step KbinSys.Exclusive {} os ↔ Always KbinSys.step KbinSys.Orderly {} os :=
  throughout_iff_always (I := KbinInv) (fun _ _ _ hInv hOk hStep => hInv.step hOk hStep)
    (fun _ hInv => hInv.toExclusive) (fun _ _ _ hInv hBad hStep => hInv.broken hBad hStep)
    kbinInv_boot h

/-- Two clients open `kbin` one behind the other. -/
theorem kbin_exclusive_exact_reopened : Throughout KbinSys.step KbinSys.Exclusive {}
    [.walk .Qkbd, .kbinopen 0 true true, .kbinclose 0, .walk .Qkbd, .kbinopen 0 true true] :=
  Iff.mpr (kbin_exclusive_exact rfl) (by simp [Always, KbinSys.Orderly, KbinSys.step, kbinopen])

/-- A stat of `kbin` by one client lets a second one open it while a first one has it
open. -/
theorem kbin_opened_twice : ∃ t : KbinSys,
    run KbinSys.step {} [.walk .Qkbd, .kbinopen 0 true true, .walk .Qkbd, .kbinclose 1,
      .walk .Qkbd, .kbinopen 1 true true] = some t ∧ count onKbin t.chans = 2 ∧ ¬ t.Exclusive := by
  refine ⟨_, rfl, by decide, fun hExcl => ?_⟩
  exact absurd hExcl.once (by decide)

end Glendum
