import Glendum.Console.Echo
import Glendum.Lib.Trace

/-!
# Glendum — console output and its log

`putstrn0`, under `putstrn`, `print` and the writes to `/dev/cons`, gives its bytes to
the host and returns. Only `echo` calls `kmesgputs`, so the log holds the last bytes
that were echoed. That is the last of all that went to the console as long as the other
calls send nothing, or nothing that would show: a full log that the text merely
repeats.

* `Console.step_log` — what one call does to the log;
* `kmesg_exact` — the runs in which the log shows what went to the console.
-/

namespace Glendum

open Machine Trace

/-! ## The output calls -/

def putstrn0 (s : Cons) (str : List Byte) (_usewrite : Bool) : Cons :=
  { s with hostout := s.hostout ++ str }

def putstrn (s : Cons) (str : List Byte) : Cons := putstrn0 s str false

/-- `text` is what `vseprint` makes of the arguments. -/
def print (noprint : Bool) (s : Cons) (text : List Byte) : Cons × Int :=
  if noprint then (s, -1) else (putstrn s text, text.length)

/-- `conswrite` on `cons`: the data go out in copies of at most 256 bytes. -/
def conswriteCons (s : Cons) (a : List Byte) : Cons :=
  if _h : a = [] then s else conswriteCons (putstrn0 s (a.take 256) true) (a.drop 256)
termination_by a.length
decreasing_by
  have hPos := List.length_pos_iff.mpr _h
  rw [List.length_drop]
  omega

theorem conswriteCons_eq (s : Cons) (a : List Byte) :
    conswriteCons s a = { s with hostout := s.hostout ++ a } := by
  induction s, a using conswriteCons.induct with
  | case1 s => rw [conswriteCons, dif_pos rfl, List.append_nil]
  | case2 s a h ih =>
    rw [conswriteCons, dif_neg h, ih]
    simp only [putstrn0, List.append_assoc, List.take_append_drop]

/-! ## Calls in any order -/

/-- The console with the bytes that the calls sent to it. -/
structure Console where
  cons : Cons := {}
  sent : List Byte := []

inductive OutOp
  | putstrn (str : List Byte)
  | print (noprint : Bool) (text : List Byte)
  | conswrite (a : List Byte)
  /-- `echo` while the console is not raw -/
  | echo (cpuserver room : Bool) (buf : List Byte)

def Console.step (s : Console) : OutOp → Option Console
  | .putstrn str => some { cons := putstrn s.cons str, sent := s.sent ++ str }
  | .print noprint text =>
    some { cons := (print noprint s.cons text).1,
           sent := s.sent ++ if noprint then [] else text }
  | .conswrite a => some { cons := conswriteCons s.cons a, sent := s.sent ++ a }
  | .echo cpuserver room buf =>
    if s.cons.kbd.raw then none
    else
      let r := echo cpuserver room s.cons buf
      some { cons := r.1, sent := s.sent ++ r.2 }

/-- What a call other than `echo` sends to the console. -/
def OutOp.text : OutOp → List Byte
  | .putstrn str => str
  | .print noprint text => if noprint then [] else text
  | .conswrite a => a
  | .echo .. => []

/-- A read of `/dev/kmesg` returns the last of what was sent to the console. -/
def Console.Logged (s : Console) : Prop :=
  ∀ n, KMESGSIZE ≤ n → readKmesg s.cons.kmesg 0 n = s.sent.rtake KMESGSIZE

/-- The call sends nothing that the log would have to show: no bytes, or bytes behind
which a full log looks the same. -/
def Console.Unseen (s : Console) (o : OutOp) : Prop :=
  o.text = [] ∨
    (s.cons.kmesg.n = KMESGSIZE ∧ (s.cons.kmesg.text ++ o.text).rtake KMESGSIZE = s.cons.kmesg.text)

section

variable {s s' : Console} {o : OutOp}

theorem logged_iff : s.Logged ↔ s.cons.kmesg.text = s.sent.rtake KMESGSIZE := by
  constructor
  · intro h
    rw [← readKmesg_start (Nat.le_refl KMESGSIZE)]
    exact h KMESGSIZE (Nat.le_refl _)
  · intro h n hn
    rw [readKmesg_start hn, h]

/-- `echo` logs what it queues. -/
theorem echo_log {cons : Cons} (cpuserver room : Bool) (buf : List Byte)
    (hRaw : cons.kbd.raw = false) :
    (echo cpuserver room cons buf).1.kmesg.text =
      (cons.kmesg.text ++ (echo cpuserver room cons buf).2).rtake KMESGSIZE := by
  -- a call that ends at a command logs nothing and sends nothing
  have hNothing : cons.kmesg.text = (cons.kmesg.text ++ []).rtake KMESGSIZE := by
    rw [List.append_nil, Window.rtake_of_length_le]
    rw [Window.length_text]
    exact cons.kmesg.fits
  unfold echo
  by_cases hNil : buf = []
  · rw [if_pos hNil]
    exact hNothing
  · simp only [if_neg hNil]
    cases (scan (cpuserver && !cons.kbd.ctlpoff) cons.ctrlt buf).2 with
    | exiting => exact hNothing
    | command c => exact hNothing
    | through =>
      simp only [hRaw, Bool.false_eq_true, if_false]
      exact text_kmesgputs _ _

/-- Of a call other than `echo` the log stays as it is; `echo` logs what it sends. -/
theorem Console.step_log (hStep : s.step o = some s') :
    (s'.cons.kmesg = s.cons.kmesg ∧ s'.sent = s.sent ++ o.text) ∨
      (o.text = [] ∧ ∃ bs, s'.sent = s.sent ++ bs ∧
        s'.cons.kmesg.text = (s.cons.kmesg.text ++ bs).rtake KMESGSIZE) := by
  cases o with
  -- `putstrn0` returns behind `host_write`
  | putstrn str =>
    obtain rfl := Option.some.inj hStep
    exact Or.inl ⟨rfl, rfl⟩
  | print noprint text =>
    obtain rfl := Option.some.inj hStep
    refine Or.inl ⟨?_, rfl⟩
    cases noprint <;> rfl
  | conswrite a =>
    obtain rfl := Option.some.inj hStep
    refine Or.inl ⟨?_, rfl⟩
    -- the chunks of 256 bytes all go the way of `putstrn`
    simp only [conswriteCons_eq]
  | echo cpuserver room buf =>
    simp only [Console.step, Option.ite_none_left_eq_some, Option.some.injEq, Bool.not_eq_true]
      at hStep
    obtain ⟨hRaw, rfl⟩ := hStep
    exact Or.inr ⟨rfl, _, rfl, echo_log cpuserver room buf hRaw⟩

theorem Console.Logged.step (h : s.Logged) (hUnseen : s.Unseen o) (hStep : s.step o = some s') :
    s'.Logged := by
  rw [logged_iff] at h ⊢
  rcases Console.step_log hStep with ⟨hLog, hSent⟩ | ⟨-, bs, hSent, hLog⟩
  · -- the log is as before: so is what it has to show
    rw [hLog, hSent]
    rcases hUnseen with hNone | ⟨-, hSame⟩
    · rw [hNone, List.append_nil]
      exact h
    · rw [← Window.rtake_rtake_append, ← h, hSame]
  · rw [hLog, hSent, h, Window.rtake_rtake_append]

/-- Bytes that the log would show are missing in it. -/
theorem Console.Logged.broken (h : s.Logged) (hSeen : ¬ s.Unseen o) (hStep : s.step o = some s') :
    ¬ s'.Logged := by
  rw [logged_iff] at h ⊢
  intro hLogged
  rcases Console.step_log hStep with ⟨hLog, hSent⟩ | ⟨hNone, -⟩
  · rw [hLog, hSent, ← Window.rtake_rtake_append, ← h] at hLogged
    refine hSeen (Or.inr ⟨?_, hLogged.symm⟩)
    -- the log did not get longer, though there was a text
    have hText : o.text ≠ [] := fun hNil => hSeen (Or.inl hNil)
    have hPos := List.length_pos_iff.mpr hText
    have hLen := congrArg List.length hLogged
    rw [Window.length_rtake, List.length_append, Window.length_text] at hLen
    have hFits := s.cons.kmesg.fits
    omega
  · exact hSeen (Or.inl hNone)

end

/-- The log shows what went to the console all the time exactly in the runs in which
no call but `echo` sends anything that would show. -/
theorem kmesg_exact {os : List OutOp} {t : Console} (h : run Console.step {} os = some t) :
    Throughout Console.step Console.Logged {} os ↔ Always Console.step Console.Unseen {} os := by
  refine throughout_iff_always (I := Console.Logged) (fun _ _ _ hLog hUnseen hStep =>
    hLog.step hUnseen hStep) (fun _ hLog => hLog) (fun _ _ _ hLog hSeen hStep =>
    hLog.broken hSeen hStep) ?_ h
  rw [logged_iff]
  rfl

/-- A key that is echoed is logged. -/
theorem kmesg_exact_echo : Throughout Console.step Console.Logged {}
    [.echo false true (ascii "a"), .print true (ascii "hi")] :=
  Iff.mpr (kmesg_exact rfl)
    ⟨Or.inl rfl, fun _ _ => ⟨Or.inl rfl, fun _ _ => trivial⟩⟩

/-- A message printed at boot is not in the log. -/
theorem print_not_logged : ∃ t : Console,
    run Console.step {} [.print false (ascii "hi")] = some t ∧ t.sent = ascii "hi" ∧
      t.cons.hostout = ascii "hi" ∧ readKmesg t.cons.kmesg 0 KMESGSIZE = [] ∧ ¬ t.Logged := by
  refine ⟨_, rfl, rfl, rfl, rfl, fun hLogged => ?_⟩
  rw [logged_iff] at hLogged
  cases hLogged

end Glendum
