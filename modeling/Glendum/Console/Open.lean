import Glendum.Console.Types
import Glendum.Lib.Clients
import Glendum.Lib.Trace

/-!
# Glendum — opening and closing console files

`consopen`, the `consctl` part of `conswrite`, and `consclose`. A client walks a
channel to a file, asks once for it to be opened, writes through it when that worked,
and closes it in any case. `devopen` and `qopen` are code of the original kernel that
the driver relies on; what they answer is part of the operation, and `devopen` sets
`COPEN` when it does not refuse.

The counters of the driver follow the open channels in every run in which `qopen`
gives a queue to the opener of `kprint`. When it does not, `consopen` clears `COPEN`
but leaves `kprintinuse` set, and no one can open `kprint` again.

* `ConsInv.step` — one operation;
* `console_control_exact` — the runs in which the counters follow the channels.
-/

namespace Glendum

open Machine Clients Trace

/-! ## The driver's functions -/

/-- A channel on a console file. `tried` tells that an open was asked for. -/
structure Chan where
  qid   : Qid
  copen : Bool := false
  tried : Bool := false
deriving DecidableEq

/-- What `consopen` raises. -/
inductive OpenErr
  /-- the error of `devopen` -/
  | refused
  | Einuse
  | Enomem
deriving DecidableEq

/-- The value that `tas` leaves in its word. -/
def TASKEY : Nat := 0xDEADDEAD

def Cons.setCtl (s : Cons) (n : Nat) : Cons := { s with kbd := { s.kbd with ctl := n } }

def Cons.setRaw (s : Cons) (b : Bool) : Cons := { s with kbd := { s.kbd with raw := b } }

def consopen (s : Cons) (c : Chan) (granted queue : Bool) : Cons × Chan × Option OpenErr :=
  if granted then
    let c := { c with copen := true }
    match c.qid with
    | .Qconsctl => (s.setCtl (s.kbd.ctl + 1), c, none)
    | .Qkprint =>
      -- `tas` writes the key before anything is looked at
      let taken := { s with kprintinuse := TASKEY }
      if s.kprintinuse ≠ 0 then (taken, { c with copen := false }, some .Einuse)
      else
        match s.kprintoq with
        | none =>
          if queue then ({ taken with kprintoq := some .working }, c, none)
          -- this exit keeps the key
          else (taken, { c with copen := false }, some .Enomem)
        | some _ => ({ taken with kprintoq := some .working }, c, none)
    | _ => (s, c, none)
  else (s, c, some .refused)

def consclose (s : Cons) (c : Chan) : Cons :=
  match c.qid with
  | .Qconsctl =>
    if c.copen then
      let s := s.setCtl (s.kbd.ctl - 1)
      if s.kbd.ctl = 0 then s.setRaw false else s
    else s
  | .Qkprint =>
    if c.copen then { s with kprintinuse := 0, kprintoq := s.kprintoq.map fun _ => .closed } else s
  | _ => s

/-- One word of a text written to `consctl`; what follows the word does not matter. -/
def ctlword (s : Cons) (a : List Byte) : Cons :=
  if (ascii "rawon").isPrefixOf a then
    -- the NUL wakes up a reader of the console
    { s.setRaw true with kbdq := s.kbdq ++ [0] }
  else if (ascii "rawoff").isPrefixOf a then s.setRaw false
  else if (ascii "ctlpon").isPrefixOf a then { s with kbd := { s.kbd with ctlpoff := false } }
  else if (ascii "ctlpoff").isPrefixOf a then { s with kbd := { s.kbd with ctlpoff := true } }
  else s

/-- The rests of a string that follow a blank. -/
def afterBlanks : List Byte → List (List Byte)
  | [] => []
  | b :: a => if b = ch ' ' then a :: afterBlanks a else afterBlanks a

/-- `conswrite` on `consctl`: a copy of at most 255 bytes is taken as a string. -/
def conswriteCtl (s : Cons) (a : List Byte) : Cons :=
  let buf := cstring (a.take 255)
  (buf :: afterBlanks buf).foldl ctlword s

/-! ## Clients -/

structure ConsSys where
  cons  : Cons := {}
  chans : List Chan := []

inductive ConsOp
  /-- a new channel, walked to a file -/
  | walk (q : Qid)
  /-- an open of channel `i`, with the answers of `devopen` and `qopen` -/
  | consopen (i : Nat) (granted queue : Bool)
  /-- a write to `consctl` through channel `i` -/
  | conswrite (i : Nat) (text : List Byte)
  | consclose (i : Nat)

def ConsSys.step (s : ConsSys) : ConsOp → Option ConsSys
  | .walk q => some { s with chans := s.chans ++ [{ qid := q }] }
  | .consopen i granted queue =>
    match s.chans[i]? with
    | none => none
    | some c =>
      if c.tried then none
      else
        let r := consopen s.cons c granted queue
        some { cons := r.1, chans := s.chans.set i { r.2.1 with tried := true } }
  | .conswrite i text =>
    match s.chans[i]? with
    | none => none
    | some c =>
      -- a write needs an open channel
      if c.copen ∧ c.qid = .Qconsctl then some { s with cons := conswriteCtl s.cons text } else none
  | .consclose i =>
    match s.chans[i]? with
    | none => none
    | some c => some { cons := consclose s.cons c, chans := s.chans.eraseIdx i }

/-- The open channels on a file. -/
def opened (q : Qid) (c : Chan) : Bool := c.copen && decide (c.qid = q)

/-- The counters and `raw` follow the open channels. -/
structure ConsSys.Follows (s : ConsSys) : Prop where
  kprint : s.cons.kprintinuse ≠ 0 ↔ count (opened .Qkprint) s.chans = 1
  ctl    : s.cons.kbd.ctl = count (opened .Qconsctl) s.chans
  raw    : count (opened .Qconsctl) s.chans = 0 → s.cons.kbd.raw = false

/-- An opener of `kprint` that finds it free gets a queue. -/
def ConsSys.QueueGiven (s : ConsSys) : ConsOp → Prop
  | .consopen i true false =>
    ∀ c, s.chans[i]? = some c → c.qid = .Qkprint → s.cons.kprintinuse ≠ 0 ∨ s.cons.kprintoq ≠ none
  | _ => True

/-! ## What the operations change -/

section

variable {s s' : ConsSys} {c : Chan} {i : Nat} {granted queue : Bool} {o : ConsOp}

/-- Raw mode is set, and the counters stay. -/
@[simp] theorem Cons.setRaw_ctl (s : Cons) (b : Bool) : (s.setRaw b).kbd.ctl = s.kbd.ctl := rfl
@[simp] theorem Cons.setRaw_raw (s : Cons) (b : Bool) : (s.setRaw b).kbd.raw = b := rfl
@[simp] theorem Cons.setRaw_kprintinuse (s : Cons) (b : Bool) :
    (s.setRaw b).kprintinuse = s.kprintinuse := rfl

/-- The count of the control files is set, and nothing else is. -/
@[simp] theorem Cons.setCtl_ctl (s : Cons) (n : Nat) : (s.setCtl n).kbd.ctl = n := rfl
@[simp] theorem Cons.setCtl_raw (s : Cons) (n : Nat) : (s.setCtl n).kbd.raw = s.kbd.raw := rfl
@[simp] theorem Cons.setCtl_kprintinuse (s : Cons) (n : Nat) :
    (s.setCtl n).kprintinuse = s.kprintinuse := rfl

/-- A word on `consctl` does not touch the counters. -/
theorem ctlword_frame (s : Cons) (a : List Byte) :
    (ctlword s a).kbd.ctl = s.kbd.ctl ∧ (ctlword s a).kprintinuse = s.kprintinuse := by
  unfold ctlword
  split
  · exact ⟨rfl, rfl⟩
  split
  · exact ⟨rfl, rfl⟩
  split
  · exact ⟨rfl, rfl⟩
  split
  · exact ⟨rfl, rfl⟩
  · exact ⟨rfl, rfl⟩

/-- The words of a write touch neither of the counters. -/
theorem ctlwords_frame (s : Cons) (ws : List (List Byte)) :
    (ws.foldl ctlword s).kbd.ctl = s.kbd.ctl ∧ (ws.foldl ctlword s).kprintinuse = s.kprintinuse := by
  induction ws generalizing s with
  | nil => exact ⟨rfl, rfl⟩
  | cons w ws ih =>
    obtain ⟨hCtl, hInuse⟩ := ih (ctlword s w)
    obtain ⟨hCtl', hInuse'⟩ := ctlword_frame s w
    exact ⟨hCtl.trans hCtl', hInuse.trans hInuse'⟩

/-- Nor does the whole write. -/
theorem conswriteCtl_frame (s : Cons) (a : List Byte) :
    (conswriteCtl s a).kbd.ctl = s.kbd.ctl ∧ (conswriteCtl s a).kprintinuse = s.kprintinuse :=
  ctlwords_frame s _

/-- The ways an open can go. -/
theorem consopen_cases (s : Cons) (c : Chan) (granted queue : Bool) :
    -- `devopen` refuses
    (granted = false ∧ consopen s c granted queue = (s, c, some .refused)) ∨
    (granted = true ∧
      -- `consctl`
      ((c.qid = .Qconsctl ∧
        consopen s c granted queue = (s.setCtl (s.kbd.ctl + 1), { c with copen := true }, none)) ∨
      -- `kprint` in use, without a queue, and with one
      (c.qid = .Qkprint ∧ s.kprintinuse ≠ 0 ∧ consopen s c granted queue =
        ({ s with kprintinuse := TASKEY }, { c with copen := false }, some .Einuse)) ∨
      (c.qid = .Qkprint ∧ s.kprintinuse = 0 ∧ s.kprintoq = none ∧ queue = false ∧
        consopen s c granted queue =
          ({ s with kprintinuse := TASKEY }, { c with copen := false }, some .Enomem)) ∨
      (c.qid = .Qkprint ∧ s.kprintinuse = 0 ∧ (s.kprintoq ≠ none ∨ queue = true) ∧
        consopen s c granted queue =
          ({ s with kprintinuse := TASKEY, kprintoq := some .working }, { c with copen := true },
            none)) ∨
      -- any other file
      (c.qid ≠ .Qconsctl ∧ c.qid ≠ .Qkprint ∧
        consopen s c granted queue = (s, { c with copen := true }, none)))) := by
  cases granted with
  | false => exact Or.inl ⟨rfl, rfl⟩
  | true =>
    refine Or.inr ⟨rfl, ?_⟩
    by_cases hCtl : c.qid = .Qconsctl
    · exact Or.inl ⟨hCtl, by simp [consopen, hCtl]⟩
    by_cases hKprint : c.qid = .Qkprint
    · by_cases hInuse : s.kprintinuse = 0
      · cases hQueue : s.kprintoq with
        | some q =>
          exact Or.inr (Or.inr (Or.inr (Or.inl
            ⟨hKprint, hInuse, Or.inl (by simp), by simp [consopen, hKprint, hInuse, hQueue]⟩)))
        | none =>
          cases queue with
          | true =>
            exact Or.inr (Or.inr (Or.inr (Or.inl
              ⟨hKprint, hInuse, Or.inr rfl, by simp [consopen, hKprint, hInuse, hQueue]⟩)))
          | false =>
            exact Or.inr (Or.inr (Or.inl
              ⟨hKprint, hInuse, rfl, rfl, by simp [consopen, hKprint, hInuse, hQueue]⟩))
      · exact Or.inr (Or.inl ⟨hKprint, hInuse, by simp [consopen, hKprint, hInuse]⟩)
    · refine Or.inr (Or.inr (Or.inr (Or.inr ⟨hCtl, hKprint, ?_⟩)))
      unfold consopen
      cases hQid : c.qid <;> simp_all

/-- What `Follows` needs to be kept: `kprint` is open at most once, and no channel is
open before it was asked to be. -/
structure ConsInv (s : ConsSys) : Prop extends s.Follows where
  once    : count (opened .Qkprint) s.chans ≤ 1
  untried : ∀ c ∈ s.chans, c.tried = false → c.copen = false

/-- Nothing is open. -/
theorem consInv_boot : ConsInv {} where
  kprint := by simp
  ctl := rfl
  raw := fun _ => rfl
  once := Nat.zero_le _
  untried := by simp

/-- A channel that is not open counts for nothing. -/
theorem ConsInv.of_walk (h : ConsInv s) (q : Qid) :
    ConsInv { s with chans := s.chans ++ [{ qid := q }] } := by
  have hSame : ∀ q', count (opened q') (s.chans ++ [{ qid := q }]) = count (opened q') s.chans := by
    intro q'
    simp [opened]
  refine ⟨⟨?_, ?_, ?_⟩, ?_, ?_⟩
  · rw [hSame]
    exact h.kprint
  · rw [hSame]
    exact h.ctl
  · rw [hSame]
    exact h.raw
  · rw [hSame]
    exact h.once
  · exact fresh_join h.untried rfl

/-- The channel that is opened was not counted before. -/
theorem ConsInv.count_turn (h : ConsInv s) (hc : s.chans[i]? = some c) (hTried : c.tried = false)
    (q : Qid) (c' : Chan) :
    count (opened q) (s.chans.set i c') = count (opened q) s.chans + (opened q c').toNat := by
  refine count_first h.untried hc hTried (fun hNot => ?_) c'
  rw [opened, hNot, Bool.false_and]

/-- An open counts its channel, if it succeeds. -/
theorem ConsInv.of_consopen (h : ConsInv s) (hc : s.chans[i]? = some c) (hTried : c.tried = false)
    (hQueue : s.QueueGiven (.consopen i granted queue)) :
    ConsInv { cons := (consopen s.cons c granted queue).1,
              chans := s.chans.set i { (consopen s.cons c granted queue).2.1 with tried := true } } := by
  have hNotOpen := h.untried c (List.mem_of_getElem? hc) hTried
  have hCount := fun q c' => h.count_turn hc hTried q c'
  rcases consopen_cases s.cons c granted queue with
    ⟨-, hR⟩ | ⟨hGranted, ⟨hQid, hR⟩ | ⟨hQid, hInuse, hR⟩ | ⟨hQid, hInuse, hNone, hNo, hR⟩ |
      ⟨hQid, hInuse, -, hR⟩ | ⟨hCtl, hKprint, hR⟩⟩ <;> rw [hR]
  · -- nothing was opened
    refine ⟨⟨?_, ?_, ?_⟩, ?_, fresh_turn h.untried rfl⟩
    · simpa [hCount, opened, hNotOpen] using h.kprint
    · simpa [hCount, opened, hNotOpen] using h.ctl
    · simpa [hCount, opened, hNotOpen] using h.raw
    · simpa [hCount, opened, hNotOpen] using h.once
  · -- one more `consctl`: its count is not 0
    refine ⟨⟨?_, ?_, ?_⟩, ?_, fresh_turn h.untried rfl⟩
    · simpa [hCount, opened, hQid] using h.kprint
    · simpa [hCount, opened, hQid] using h.ctl
    · simp [hCount, opened, hQid]
    · simpa [hCount, opened, hQid] using h.once
  · -- `kprint` is in use, and stays so
    refine ⟨⟨?_, ?_, ?_⟩, ?_, fresh_turn h.untried rfl⟩
    · simpa [hCount, opened, TASKEY] using h.kprint.mp hInuse
    · simpa [hCount, opened] using h.ctl
    · simpa [hCount, opened] using h.raw
    · simpa [hCount, opened] using h.once
  · -- the case that is ruled out
    subst hGranted hNo
    rcases hQueue c hc hQid with hBusy | hSome
    · exact absurd hInuse hBusy
    · exact absurd hNone hSome
  · -- the first opener of `kprint`
    have hFree : count (opened .Qkprint) s.chans = 0 := by
      have hOnce := h.once
      have hNone : ¬ count (opened .Qkprint) s.chans = 1 := fun hOne => h.kprint.mpr hOne hInuse
      omega
    refine ⟨⟨?_, ?_, ?_⟩, ?_, fresh_turn h.untried rfl⟩
    · simp [hCount, opened, hQid, hFree, TASKEY]
    · simpa [hCount, opened, hQid] using h.ctl
    · simpa [hCount, opened, hQid] using h.raw
    · simp [hCount, opened, hQid, hFree]
  · refine ⟨⟨?_, ?_, ?_⟩, ?_, fresh_turn h.untried rfl⟩
    · simpa [hCount, opened, hCtl, hKprint] using h.kprint
    · simpa [hCount, opened, hCtl, hKprint] using h.ctl
    · simpa [hCount, opened, hCtl, hKprint] using h.raw
    · simpa [hCount, opened, hCtl, hKprint] using h.once

/-- A write to `consctl` changes the mode only. -/
theorem ConsInv.of_conswrite (h : ConsInv s) (hc : s.chans[i]? = some c)
    (hOpen : c.copen = true ∧ c.qid = .Qconsctl) (text : List Byte) :
    ConsInv { s with cons := conswriteCtl s.cons text } := by
  obtain ⟨hCtl, hInuse⟩ := conswriteCtl_frame s.cons text
  refine ⟨⟨?_, ?_, ?_⟩, h.once, h.untried⟩
  · rw [hInuse]
    exact h.kprint
  · exact hCtl.trans h.ctl
  · -- the writer's own channel is open
    intro hZero
    have hPos := count_pos (q := opened .Qconsctl) hc (by simp [opened, hOpen])
    rw [show count (opened .Qconsctl) s.chans = 0 from hZero] at hPos
    cases hPos

/-- A channel leaves; the counters follow when they go down by what it counted for. -/
theorem ConsInv.leave (h : ConsInv s) (hc : s.chans[i]? = some c) {cons : Cons}
    (hCtl : cons.kbd.ctl + (opened .Qconsctl c).toNat = s.cons.kbd.ctl)
    (hRaw : cons.kbd.ctl = 0 → cons.kbd.raw = false)
    (hInuse : cons.kprintinuse = if opened .Qkprint c then 0 else s.cons.kprintinuse) :
    ConsInv { cons := cons, chans := s.chans.eraseIdx i } := by
  have hLeaveCtl := count_leave (q := opened .Qconsctl) hc
  have hLeaveKprint := count_leave (q := opened .Qkprint) hc
  have hNow : cons.kbd.ctl = count (opened .Qconsctl) (s.chans.eraseIdx i) := by
    have hEq := h.ctl
    omega
  have hOnce := h.once
  refine ⟨⟨?_, hNow, fun hZero => hRaw (hNow.trans hZero)⟩, ?_,
    fresh_leave h.untried⟩
  · cases hKprint : opened .Qkprint c with
    | true =>
      -- it was the only one
      rw [hKprint, Bool.toNat_true] at hLeaveKprint
      simp only [hInuse, hKprint, if_true]
      omega
    | false =>
      rw [hKprint, Bool.toNat_false, Nat.add_zero] at hLeaveKprint
      simp only [hInuse, hKprint, Bool.false_eq_true, if_false, hLeaveKprint]
      exact h.kprint
  · simp only
    omega

/-- A close counts its channel out. -/
theorem ConsInv.of_consclose (h : ConsInv s) (hc : s.chans[i]? = some c) :
    ConsInv { cons := consclose s.cons c, chans := s.chans.eraseIdx i } := by
  -- without a closed `consctl` the number of these stays, and with it the mode
  have hKeep : s.cons.kbd.ctl = 0 → s.cons.kbd.raw = false := fun hZero => h.raw (h.ctl ▸ hZero)
  unfold consclose
  by_cases hOpen : c.copen = true
  · cases hQid : c.qid with
    | Qconsctl =>
      have hPos := count_pos (q := opened .Qconsctl) hc (by simp [opened, hOpen, hQid])
      have hEq := h.ctl
      simp only [hOpen, if_true]
      -- the last one that leaves switches raw mode off
      by_cases hLast : (s.cons.setCtl (s.cons.kbd.ctl - 1)).kbd.ctl = 0
      · rw [if_pos hLast]
        refine h.leave hc ?_ (fun _ => rfl) (by simp [opened, hQid])
        simp only [opened, hOpen, hQid, Cons.setRaw_ctl, Cons.setCtl_ctl, decide_true,
          Bool.and_self, Bool.toNat_true]
        omega
      · rw [if_neg hLast]
        refine h.leave hc ?_ (fun hZero => absurd hZero hLast) (by simp [opened, hQid])
        simp only [opened, hOpen, hQid, Cons.setCtl_ctl, decide_true, Bool.and_self,
          Bool.toNat_true]
        omega
    | Qkprint =>
      simp only [hOpen, if_true]
      exact h.leave hc (by simp [opened, hQid]) hKeep (by simp [opened, hOpen, hQid])
    | _ => exact h.leave hc (by simp [opened, hQid]) hKeep (by simp [opened, hQid])
  · cases hQid : c.qid with
    | Qconsctl =>
      simp only [if_neg hOpen]
      exact h.leave hc (by simp [opened, hOpen]) hKeep (by simp [opened, hOpen])
    | Qkprint =>
      simp only [if_neg hOpen]
      exact h.leave hc (by simp [opened, hOpen]) hKeep (by simp [opened, hOpen])
    | _ => exact h.leave hc (by simp [opened, hOpen]) hKeep (by simp [opened, hOpen])

/-! ## One operation, and runs -/

/-- An open is the first one of its channel. -/
theorem ConsSys.step_consopen (hStep : s.step (.consopen i granted queue) = some s') :
    ∃ c, s.chans[i]? = some c ∧ c.tried = false ∧
      s' = { cons := (consopen s.cons c granted queue).1,
             chans := s.chans.set i
               { (consopen s.cons c granted queue).2.1 with tried := true } } := by
  cases hc : s.chans[i]? with
  | none => simp [ConsSys.step, hc] at hStep
  | some c =>
    simp only [ConsSys.step, hc, Option.ite_none_left_eq_some, Bool.not_eq_true,
      Option.some.injEq] at hStep
    exact ⟨c, rfl, hStep.1, hStep.2.symm⟩

/-- Every operation keeps the counts when the queue is there. -/
theorem ConsInv.step (h : ConsInv s) (hQueue : s.QueueGiven o) (hStep : s.step o = some s') :
    ConsInv s' := by
  cases o with
  | walk q =>
    obtain rfl := Option.some.inj hStep
    exact h.of_walk q
  | consopen i granted queue =>
    obtain ⟨c, hc, hTried, rfl⟩ := ConsSys.step_consopen hStep
    exact h.of_consopen hc hTried hQueue
  | conswrite i text =>
    cases hc : s.chans[i]? with
    | none => simp [ConsSys.step, hc] at hStep
    | some c =>
      simp only [ConsSys.step, hc, Option.ite_none_right_eq_some, Option.some.injEq] at hStep
      obtain ⟨hOpen, rfl⟩ := hStep
      exact h.of_conswrite hc hOpen text
  | consclose i =>
    cases hc : s.chans[i]? with
    | none => simp [ConsSys.step, hc] at hStep
    | some c =>
      simp only [ConsSys.step, hc, Option.some.injEq] at hStep
      subst hStep
      exact h.of_consclose hc

/-- Without a queue `kprint` counts as in use, and no channel has it open. -/
theorem ConsInv.queue_refused (h : ConsInv s) (hQueue : ¬ s.QueueGiven o)
    (hStep : s.step o = some s') : ¬ s'.Follows := by
  cases o with
  | walk q => exact absurd trivial hQueue
  | conswrite i text => exact absurd trivial hQueue
  | consclose i => exact absurd trivial hQueue
  | consopen i granted queue =>
    cases granted with
    | false => exact absurd trivial hQueue
    | true =>
      cases queue with
      | true => exact absurd trivial hQueue
      | false =>
        simp only [ConsSys.QueueGiven, not_forall, not_or, not_not] at hQueue
        obtain ⟨c, hc, hQid, hInuse, hNone⟩ := hQueue
        obtain ⟨c', hc', hTried, rfl⟩ := ConsSys.step_consopen hStep
        obtain rfl : c = c' := Option.some.inj (hc.symm.trans hc')
        intro hFollows
        -- nobody had `kprint` open before, and the channel was not counted
        have hCount := hFollows.kprint.mp (by simp [consopen, hQid, hInuse, hNone, TASKEY])
        rw [h.count_turn hc hTried] at hCount
        have hNow : count (opened .Qkprint) s.chans = 1 := by
          simpa [consopen, hQid, hInuse, hNone, opened] using hCount
        exact h.kprint.mpr hNow hInuse

end

/-- The counters follow the open channels all the time exactly in the runs in which
no opener of `kprint` is refused a queue. -/
theorem console_control_exact {os : List ConsOp} {t : ConsSys}
    (h : run ConsSys.step {} os = some t) :
    Throughout ConsSys.step ConsSys.Follows {} os ↔ Always ConsSys.step ConsSys.QueueGiven {} os :=
  throughout_iff_always (I := ConsInv) (fun _ _ _ hInv hOk hStep => hInv.step hOk hStep)
    (fun _ hInv => hInv.toFollows) (fun _ _ _ hInv hBad hStep => hInv.queue_refused hBad hStep)
    consInv_boot h

theorem console_control_exact_rawon : Throughout ConsSys.step ConsSys.Follows {}
    [.walk .Qconsctl, .consopen 0 true true, .conswrite 0 (ascii "rawon"), .consclose 0] :=
  Iff.mpr (console_control_exact rfl) (by simp [Always, ConsSys.QueueGiven])

/-- One opener without a queue, and after its close `kprint` is in use with no
channel left. -/
theorem kprint_stays_in_use : ∃ t : ConsSys,
    run ConsSys.step {} [.walk .Qkprint, .consopen 0 true false, .consclose 0] = some t ∧
      t.chans = [] ∧ t.cons.kprintinuse ≠ 0 ∧ ¬ t.Follows := by
  refine ⟨_, rfl, rfl, by decide, fun hFollows => ?_⟩
  have hCount := hFollows.kprint.mp (by decide)
  cases hCount

end Glendum
