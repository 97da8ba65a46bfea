import Glendum.Console.Cooked
import Glendum.Console.Open
import Glendum.Console.Scan

/-!
# Glendum — keys and partial lines

A NUL in `kbdq` tells `consread` that raw mode was switched on, and makes it send the
pending bytes. The key tables have NUL for the keys without a meaning (`No`), and
`kbdputsc` gives it to `kbdputc` as it does any other rune; `latin1` can answer NUL as
well. So a key can put a NUL into the staging ring, and with it deliver a partial line.

* `kbdputsc_nul` — the keys that do;
* `TermInv.step` / `TermInv.broken` — no other key and no other operation does;
* `partial_line_exact` — the runs in which only a newline, a `^D` and a full line
  deliver.
-/

namespace Glendum

open Machine Trace

/-! ## NUL among runes -/

/-- When `rs` is given to `kbdputc`, a NUL is staged: there is room up to it. -/
def NulStaged (room : Nat) (rs : List Rune) : Prop :=
  No ∈ rs ∧ ((rs.takeWhile fun r => r ≠ No).flatMap runetochar).length < room

instance (room : Nat) (rs : List Rune) : Decidable (NulStaged room rs) :=
  inferInstanceAs (Decidable (_ ∧ _))

/-- The scan code is the press of a key, not a prefix and not swallowed behind one. -/
def Kbscan.Pressed (k : Kbscan) (c : Byte) : Prop :=
  c ≠ 0xe0 ∧ c ≠ 0xe1 ∧ ¬ (k.esc1 = false ∧ k.esc2 ≠ 0) ∧ c &&& 0x80 = 0

instance (k : Kbscan) (c : Byte) : Decidable (k.Pressed c) :=
  inferInstanceAs (Decidable (_ ∧ _ ∧ ¬ (_ ∧ _) ∧ _))

/-- The scan code puts a NUL into a ring with that much room: the key has no meaning,
or the key ends a compose sequence that `latin1` takes for NUL, or one that it does
not know and that has a key without meaning in it. -/
def Kbscan.Injects (latin1 : List Rune → Int) (k : Kbscan) (room : Nat) (c : Byte) : Prop :=
  k.Pressed c ∧
    let r := k.decode defaultTabs c
    r &&& (Spec ||| KF) = 0 ∧
      if k.collecting then
        let rs := k.collected ++ [r]
        ¬ latin1 rs < -1 ∧
          NulStaged room (if latin1 rs ≠ -1 then [BitVec.ofInt 16 (latin1 rs)] else rs)
      else NulStaged room [r]

instance (latin1 : List Rune → Int) (k : Kbscan) (room : Nat) (c : Byte) :
    Decidable (k.Injects latin1 room c) :=
  inferInstanceAs (Decidable (_ ∧ _ ∧ if k.collecting then _ ∧ _ else _))

section

variable {r : Rune} {rs : List Rune} {room : Nat} {s : Cons}

theorem nul_mem_runetochar : (0 : Byte) ∈ runetochar r ↔ r = 0 := by
  unfold runetochar
  by_cases hOne : r ≤ 0x7F
  · -- the one byte of a small rune is the rune itself
    rw [if_pos hOne, List.mem_singleton]
    constructor
    · intro h
      apply BitVec.eq_of_toNat_eq
      have hNat := congrArg BitVec.toNat h
      rw [BitVec.toNat_setWidth] at hNat
      have hSmall : r.toNat ≤ 0x7F := hOne
      rw [Nat.mod_eq_of_lt (by omega)] at hNat
      exact hNat.symm
    · rintro rfl
      rfl
  · have hNe : r ≠ 0 := by
      rintro rfl
      exact hOne (by decide)
    rw [if_neg hOne]
    -- the bytes of longer forms have their top bit set
    have hTop : ∀ a b : Byte, a ≠ 0 → ¬ 0 = a ||| b :=
      fun a b ha h => ha (BitVec.or_eq_zero_iff.mp h.symm).1
    refine iff_of_false ?_ hNe
    split
    · simp only [List.mem_cons, List.not_mem_nil, or_false, not_or]
      exact ⟨hTop _ _ (by decide), hTop _ _ (by decide)⟩
    · simp only [List.mem_cons, List.not_mem_nil, or_false, not_or]
      exact ⟨hTop _ _ (by decide), hTop _ _ (by decide), hTop _ _ (by decide)⟩

theorem nul_mem_take : (0 : Byte) ∈ (rs.flatMap runetochar).take room ↔ NulStaged room rs := by
  induction rs generalizing room with
  | nil => simp [NulStaged]
  | cons r rs ih =>
    rw [List.flatMap_cons, List.take_append, List.mem_append, ih]
    by_cases hNul : r = No
    · subst hNul
      have hBytes : runetochar No = [0] := by decide
      rw [hBytes]
      cases room with
      | zero => simp [NulStaged]
      | succ room => simp [NulStaged]
    · -- no byte of this rune is NUL; it takes up room before the next ones
      have hNone : (0 : Byte) ∉ (runetochar r).take room :=
        fun h => hNul (nul_mem_runetochar.mp (List.mem_of_mem_take h))
      have hFirst : ¬ No = r := Ne.symm hNul
      simp only [NulStaged, hNone, false_or, List.mem_cons, hFirst, List.takeWhile_cons,
        hNul, ne_eq, not_false_iff, decide_true, if_true, List.flatMap_cons, List.length_append]
      constructor
      · rintro ⟨hIn, hRoom⟩
        exact ⟨hIn, by omega⟩
      · rintro ⟨hIn, hRoom⟩
        exact ⟨hIn, by omega⟩

theorem nulStaged_nil : ¬ NulStaged room [] := fun h => by cases h.1

/-- Bytes that are staged one by one. -/
theorem foldl_stage (bs : List Byte) (s : Cons) : bs.foldl Cons.stage s =
    { s with kbd := { s.kbd with istage := bs.foldl RingBuf.put s.kbd.istage } } := by
  induction bs generalizing s with
  | nil => rfl
  | cons b bs ih =>
    rw [List.foldl_cons, List.foldl_cons, ih]
    rfl

/-- The ring takes the bytes of runes as far as it has room. -/
theorem kbdputcs_eq (rs : List Rune) (s : Cons) : rs.foldl kbdputc s =
    { s with kbd := { s.kbd with istage := (rs.flatMap runetochar).foldl RingBuf.put s.kbd.istage } } := by
  induction rs generalizing s with
  | nil => rfl
  | cons r rs ih =>
    rw [List.foldl_cons, ih, List.flatMap_cons, List.foldl_append, kbdputc, foldl_stage]

end

/-! ## The runes of a scan code -/

section

variable {latin1 : List Rune → Int} {k k' : Kbscan} {g g' : KbGlobals} {r : Rune} {rs : List Rune}
  {room : Nat} {c : Byte}

theorem Kbscan.collected_store (h : k.nk < NKC) (r : Rune) :
    ({ k with kc := k.kc.set k.nk r h, nk := k.nk + 1 } : Kbscan).collected = k.collected ++ [r] := by
  have hLen : k.nk < (k.kc.toList.set k.nk r).length := by simpa using h
  simp only [collected, Vector.toList_set]
  rw [List.take_add_one, List.getElem?_eq_getElem hLen, List.getElem_set_self, Option.toList_some,
    List.take_set_of_le (Nat.le_refl _)]

/-- The runes of the other keys are in the private space. -/
theorem Kbscan.special_runes (k : Kbscan) (g : KbGlobals) (r : Rune) :
    (k.special g r).2.2 = [] ∨ (k.special g r).2.2 = [r] := by
  unfold special
  -- shifts, locks and mouse buttons send nothing
  split
  · exact Or.inl rfl
  split
  · exact Or.inl rfl
  split
  · exact Or.inl rfl
  split
  · split
    · exact Or.inl rfl
    · exact Or.inl rfl
  split
  · exact Or.inl rfl
  split
  · exact Or.inl rfl
  split
  · exact Or.inl rfl
  · split
    · exact Or.inr rfl
    split
    · exact Or.inr rfl
    · exact Or.inr rfl

theorem Kbscan.normal_nul (h : k.normal latin1 g r = some (k', g', rs)) :
    NulStaged room rs ↔
      if k.collecting then
        ¬ latin1 (k.collected ++ [r]) < -1 ∧
          NulStaged room (if latin1 (k.collected ++ [r]) ≠ -1
            then [BitVec.ofInt 16 (latin1 (k.collected ++ [r]))] else k.collected ++ [r])
      else NulStaged room [r] := by
  unfold normal at h
  -- in a compose sequence the runes wait for what `latin1` says
  by_cases hCollect : k.collecting = true
  · rw [if_pos hCollect] at h ⊢
    by_cases hRoom : k.nk < NKC
    · simp only [dif_pos hRoom, Kbscan.collected_store hRoom] at h
      by_cases hMore : latin1 (k.collected ++ [r]) < -1
      · -- more keys are needed
        rw [if_pos hMore, Option.some.injEq, Prod.mk.injEq, Prod.mk.injEq] at h
        obtain ⟨-, -, rfl⟩ := h
        exact iff_of_false nulStaged_nil (fun hNot => hNot.1 hMore)
      · rw [if_neg hMore, Option.some.injEq, Prod.mk.injEq, Prod.mk.injEq] at h
        obtain ⟨-, -, rfl⟩ := h
        exact (and_iff_right hMore).symm
    · rw [dif_neg hRoom] at h
      cases h
  · rw [if_neg hCollect] at h ⊢
    simp only [Option.some.injEq, Prod.mk.injEq] at h
    obtain ⟨-, -, rfl⟩ := h
    exact Iff.rfl

/-- A scan code that sends nothing. -/
theorem Kbscan.quiet {k1 : Kbscan} {g1 : KbGlobals} (h : some (k1, g1, []) = some (k', g', rs))
    (hNot : ¬ k.Injects latin1 room c) : NulStaged room rs ↔ k.Injects latin1 room c := by
  rw [Option.some.injEq, Prod.mk.injEq, Prod.mk.injEq] at h
  obtain ⟨-, -, rfl⟩ := h
  exact iff_of_false nulStaged_nil hNot

theorem kbdputsc_nul (h : kbdputsc defaultTabs latin1 k g c = some (k', g', rs)) :
    NulStaged room rs ↔ k.Injects latin1 room c := by
  unfold kbdputsc at h
  -- the prefixes, and what follows the second one, are swallowed
  by_cases hE0 : c = 0xe0
  · rw [if_pos hE0] at h
    exact Kbscan.quiet h fun hInj => hInj.1.1 hE0
  rw [if_neg hE0] at h
  by_cases hE1 : c = 0xe1
  · rw [if_pos hE1] at h
    exact Kbscan.quiet h fun hInj => hInj.1.2.1 hE1
  rw [if_neg hE1] at h
  by_cases hEsc : k.esc1 = false ∧ k.esc2 ≠ 0
  · rw [if_pos hEsc] at h
    exact Kbscan.quiet h fun hInj => hInj.1.2.2.1 hEsc
  rw [if_neg hEsc] at h
  by_cases hUp : c &&& 0x80 = 0
  · simp only [hUp, ne_eq, not_true, if_false] at h
    by_cases hNormal : k.decode defaultTabs c &&& (Spec ||| KF) = 0
    · rw [if_pos hNormal] at h
      rw [Kbscan.normal_nul h]
      exact ⟨fun hNul => ⟨⟨hE0, hE1, hEsc, hUp⟩, hNormal, hNul⟩, fun hInj => hInj.2.2⟩
    · rw [if_neg hNormal, Option.some.injEq] at h
      refine iff_of_false ?_ (fun hInj => hNormal hInj.2.1)
      have hRunes := Kbscan.special_runes { k with esc1 := false } g (k.decode defaultTabs c)
      rw [h] at hRunes
      rintro ⟨hIn, -⟩
      rcases hRunes with hNil | hOne
      · rw [show rs = [] from hNil] at hIn
        cases hIn
      · -- a rune of the private space is not NUL
        rw [show rs = [_] from hOne, List.mem_singleton] at hIn
        rw [← hIn] at hNormal
        exact hNormal (by decide)
  · -- a key that goes up
    simp only [ne_eq, hUp, not_false_iff, if_true] at h
    exact Kbscan.quiet h fun hInj => hUp hInj.1.2.2.2

end

/-! ## Keyboard, clock and reader -/

/-- The console with its keyboards. `commits` are the blocks that were written to
`lineq`, each with the byte that made `consread` write it. -/
structure Term where
  cons     : Cons := {}
  kernel   : Kbscan := {}
  external : Kbscan := {}
  globals  : KbGlobals := {}
  commits  : List (List Byte × Byte) := []

inductive TermOp
  /-- a scan code, from the keyboard or from `kbin` -/
  | key (external : Bool) (c : Byte)
  | tick (cpuserver room room' : Bool)
  /-- a write to `consctl` without a word `rawon` -/
  | conswrite (text : List Byte)
  /-- one pass of the loop of `consread` -/
  | turn
  /-- a read takes up to `n` bytes from `lineq` -/
  | read (n : Nat)

/-- A word of the text begins with `rawon`. -/
def mentionsRawon (text : List Byte) : Bool :=
  let buf := cstring (text.take 255)
  (buf :: afterBlanks buf).any fun a => (ascii "rawon").isPrefixOf a

def Term.scan (t : Term) (external : Bool) : Kbscan := if external then t.external else t.kernel

def Term.step (latin1 : List Rune → Int) (t : Term) : TermOp → Option Term
  -- both sources have a decoder of their own and share what the keyboard has
  | .key external c =>
    match kbdputsc defaultTabs latin1 (t.scan external) t.globals c with
    | none => none
    | some (k, g, rs) =>
      some { t with
        cons := rs.foldl kbdputc t.cons
        kernel := if external then t.kernel else k
        external := if external then k else t.external
        globals := g }
  | .tick cpuserver room room' => some { t with cons := (kbdputcclock cpuserver room room' t.cons).1 }
  | .conswrite text =>
    if mentionsRawon text then none else some { t with cons := conswriteCtl t.cons text }
  -- `consread` takes a byte of `kbdq` when `lineq` has nothing to read
  | .turn =>
    if t.cons.lineq ≠ [] then none
    else
      match t.cons.kbdq with
      | [] => none
      | c :: q =>
        match consturn { t.cons with kbdq := q } c with
        | none => none
        | some cons =>
          -- a delivery is noted with the byte that brought it
          some { t with cons := cons, commits := t.commits ++ cons.lineq.map fun b => (b, c) }
  | .read n =>
    match qreadLine n t.cons.lineq with
    | none => none
    | some (_, q) => some { t with cons := { t.cons with lineq := q } }

/-- No NUL is under way, and what was delivered ended in a newline, at a `^D` or with a
full line. -/
structure Term.Whole (t : Term) : Prop where
  ring  : (0 : Byte) ∉ t.cons.kbd.istage.contents
  queue : (0 : Byte) ∉ t.cons.kbdq
  lines : ∀ b ∈ t.commits, b.2 = Newline ∨ b.2 = CtrlD ∨ b.1.length = LINESIZE

/-- The operation is not a key that puts a NUL into the ring. -/
def Term.NoNul (latin1 : List Rune → Int) (t : Term) : TermOp → Prop
  | .key external c => ¬ (t.scan external).Injects latin1 t.cons.kbd.istage.room c
  | _ => True

instance (latin1 : List Rune → Int) (t : Term) : ∀ o, Decidable (t.NoNul latin1 o)
  | .key _ _ => inferInstanceAs (Decidable (¬ _))
  | .tick _ _ _ | .conswrite _ | .turn | .read _ => isTrue trivial

/-- `Whole` in cooked mode. -/
structure TermInv (t : Term) : Prop extends t.Whole where
  raw : t.cons.kbd.raw = false

section

variable {s s' : Cons} {k k' : Kbd} {c : Byte} {text : List Byte} {more send : Bool}

theorem ctlword_cooked {a : List Byte} (h : (ascii "rawon").isPrefixOf a = false)
    (hRaw : s.kbd.raw = false) :
    (ctlword s a).kbd.raw = false ∧ (ctlword s a).kbdq = s.kbdq ∧
      (ctlword s a).kbd.istage = s.kbd.istage := by
  unfold ctlword
  rw [if_neg (by simp [h])]
  split
  · exact ⟨rfl, rfl, rfl⟩
  split
  · exact ⟨hRaw, rfl, rfl⟩
  split
  · exact ⟨hRaw, rfl, rfl⟩
  · exact ⟨hRaw, rfl, rfl⟩

/-- Words one after the other, none of them `rawon`. -/
theorem ctlwords_cooked {ws : List (List Byte)}
    (hNone : ∀ w ∈ ws, (ascii "rawon").isPrefixOf w = false) (hRaw : s.kbd.raw = false) :
    (ws.foldl ctlword s).kbd.raw = false ∧ (ws.foldl ctlword s).kbdq = s.kbdq ∧
      (ws.foldl ctlword s).kbd.istage = s.kbd.istage := by
  induction ws generalizing s with
  | nil => exact ⟨hRaw, rfl, rfl⟩
  | cons w ws ih =>
    obtain ⟨hRaw', hQueue, hRing⟩ := ctlword_cooked (hNone w (List.mem_cons_self ..)) hRaw
    obtain ⟨hRaw'', hQueue', hRing'⟩ :=
      ih (fun v hv => hNone v (List.mem_cons_of_mem w hv)) hRaw'
    exact ⟨hRaw'', hQueue'.trans hQueue, hRing'.trans hRing⟩

/-- Without `rawon`, a write to `consctl` leaves the console cooked and sends no NUL. -/
theorem conswriteCtl_cooked (h : mentionsRawon text = false) (hRaw : s.kbd.raw = false) :
    (conswriteCtl s text).kbd.raw = false ∧ (conswriteCtl s text).kbdq = s.kbdq ∧
      (conswriteCtl s text).kbd.istage = s.kbd.istage := by
  refine ctlwords_cooked (fun w hw => ?_) hRaw
  simp only [mentionsRawon, List.any_eq_false, Bool.not_eq_true] at h
  exact h w hw

theorem Kbd.store_frame (h : k.store c = some k') : k'.raw = k.raw ∧ k'.istage = k.istage := by
  unfold store at h
  split at h
  · obtain rfl := Option.some.inj h
    exact ⟨rfl, rfl⟩
  · cases h

/-- What a key other than NUL does to the record of a cooked console. -/
theorem Kbd.key_cooked (h : k.key more c = some (k', send)) (hRaw : k.raw = false) (hNul : c ≠ 0) :
    k'.raw = false ∧ k'.istage = k.istage ∧ (send = true → c = Newline ∨ c = CtrlD) := by
  unfold key at h
  -- neither NUL nor raw mode; the keys that edit the line send nothing
  rw [if_neg hNul, if_neg (by simp [hRaw])] at h
  by_cases hBack : c = Backspace
  · rw [if_pos hBack, Option.some.injEq, Prod.mk.injEq] at h
    obtain ⟨rfl, rfl⟩ := h
    split
    · exact ⟨hRaw, rfl, fun h => by cases h⟩
    · exact ⟨hRaw, rfl, fun h => by cases h⟩
  rw [if_neg hBack] at h
  by_cases hKill : c = CtrlU
  · rw [if_pos hKill, Option.some.injEq, Prod.mk.injEq] at h
    obtain ⟨rfl, rfl⟩ := h
    exact ⟨hRaw, rfl, fun h => by cases h⟩
  rw [if_neg hKill] at h
  by_cases hEof : c = CtrlD
  · simp only [hEof, ne_eq, not_true, if_false, Option.some.injEq, Prod.mk.injEq] at h
    obtain ⟨rfl, -⟩ := h
    exact ⟨hRaw, rfl, fun _ => Or.inr hEof⟩
  · simp only [ne_eq, hEof, not_false_iff, if_true, or_false, Option.map_eq_some_iff,
      Prod.mk.injEq] at h
    obtain ⟨k'', hStore, rfl, rfl⟩ := h
    obtain ⟨hRaw', hRing⟩ := Kbd.store_frame hStore
    exact ⟨hRaw'.trans hRaw, hRing, fun hSend => Or.inl (of_decide_eq_true hSend)⟩

/-- One pass on a byte other than NUL delivers at a newline, at a `^D`, or a full
line. -/
theorem consturn_cooked (h : consturn s c = some s') (hRaw : s.kbd.raw = false) (hNul : c ≠ 0)
    (hLineq : s.lineq = []) :
    s'.kbd.raw = false ∧ s'.kbdq = s.kbdq ∧ s'.kbd.istage = s.kbd.istage ∧
      ∀ b ∈ s'.lineq, c = Newline ∨ c = CtrlD ∨ b.length = LINESIZE := by
  simp only [consturn, Option.map_eq_some_iff] at h
  obtain ⟨⟨k', send⟩, hKey, rfl⟩ := h
  obtain ⟨hRaw', hRing, hSend⟩ := Kbd.key_cooked hKey hRaw hNul
  split
  · next hCommit =>
    refine ⟨hRaw', rfl, hRing, fun b hb => ?_⟩
    rw [hLineq, List.nil_append, List.mem_singleton] at hb
    rcases hCommit with hSent | hFull
    · exact (hSend hSent).elim Or.inl (fun hEof => Or.inr (Or.inl hEof))
    · -- the byte made the line full
      rw [hb, Kbd.length_pending (Nat.le_of_eq hFull)]
      exact Or.inr (Or.inr hFull)
  · refine ⟨hRaw', rfl, hRing, fun b hb => ?_⟩
    rw [hLineq] at hb
    cases hb

/-- `echo` queues its buffer or nothing. -/
theorem echo_kbdq (cpuserver room : Bool) (s : Cons) (buf : List Byte) :
    (echo cpuserver room s buf).1.kbdq = s.kbdq ∨
      (echo cpuserver room s buf).1.kbdq = s.kbdq ++ buf := by
  unfold echo
  split
  · exact Or.inl rfl
  · simp only
    split
    · exact Or.inl rfl
    · exact Or.inl rfl
    · cases room with
      | false => split <;> exact Or.inl rfl
      | true => split <;> exact Or.inr rfl

theorem echoes_kbdq (cpuserver : Bool) {calls : List (Bool × List Byte)} {s : Cons} {b : Byte}
    (hb : b ∈ (echoes cpuserver s calls).1.kbdq) : b ∈ s.kbdq ∨ ∃ call ∈ calls, b ∈ call.2 := by
  induction calls generalizing s with
  | nil => exact Or.inl hb
  | cons call calls ih =>
    rcases ih hb with hb | ⟨later, hLater, hb⟩
    · -- it was in the queue, or in the buffer of the first call
      rcases echo_kbdq cpuserver call.1 s call.2 with hSame | hMore
      · rw [hSame] at hb
        exact Or.inl hb
      · rw [hMore, List.mem_append] at hb
        exact hb.imp_right fun hb => ⟨call, List.mem_cons_self .., hb⟩
    · exact Or.inr ⟨later, List.mem_cons_of_mem _ hLater, hb⟩

/-- A tick moves bytes from the ring to the queue, and leaves the record otherwise. -/
theorem kbdputcclock_moves (cpuserver room room' : Bool) (s : Cons) :
    (kbdputcclock cpuserver room room' s).1.kbd = { s.kbd with istage := s.kbd.istage.drain } ∧
      ∀ b ∈ (kbdputcclock cpuserver room room' s).1.kbdq,
        b ∈ s.kbdq ∨ b ∈ s.kbd.istage.contents := by
  rw [kbdputcclock_echoes]
  refine ⟨by simp only [echoes_kbd], fun b hb => ?_⟩
  refine (echoes_kbdq cpuserver hb).imp_right fun ⟨call, hCall, hIn⟩ => ?_
  have hPiece : call.2 ∈ s.kbd.istage.pieces := (List.of_mem_zip hCall).2
  rw [← RingBuf.flatten_pieces]
  exact List.mem_flatten.mpr ⟨call.2, hPiece, hIn⟩

end

/-! ## One operation, and runs -/

section

variable {latin1 : List Rune → Int} {t t' : Term} {o : TermOp}

theorem termInv_boot : TermInv {} where
  ring := by
    rw [RingBuf.contents_eq_nil.mpr rfl]
    exact List.not_mem_nil
  queue := List.not_mem_nil
  lines := fun b hb => by cases hb
  raw := rfl

/-- What a key leaves in the ring. -/
theorem ring_of_key (rs : List Rune) (t : Term) :
    (0 : Byte) ∈ (rs.foldl kbdputc t.cons).kbd.istage.contents ↔
      (0 : Byte) ∈ t.cons.kbd.istage.contents ∨ NulStaged t.cons.kbd.istage.room rs := by
  rw [kbdputcs_eq, RingBuf.contents_puts, List.mem_append, nul_mem_take]

/-- A scan code changes the console by its runes only. -/
theorem Term.step_key {external : Bool} {c : Byte} (hStep : t.step latin1 (.key external c) = some t') :
    ∃ k g rs, kbdputsc defaultTabs latin1 (t.scan external) t.globals c = some (k, g, rs) ∧
      t'.cons = rs.foldl kbdputc t.cons ∧ t'.commits = t.commits := by
  cases hKey : kbdputsc defaultTabs latin1 (t.scan external) t.globals c with
  | none => simp [Term.step, hKey] at hStep
  | some r =>
    obtain ⟨k, g, rs⟩ := r
    simp only [Term.step, hKey, Option.some.injEq] at hStep
    subst hStep
    exact ⟨k, g, rs, rfl, rfl, rfl⟩

theorem TermInv.step (h : TermInv t) (hOk : t.NoNul latin1 o) (hStep : t.step latin1 o = some t') :
    TermInv t' := by
  cases o with
  | key external c =>
    obtain ⟨k, g, rs, hKey, hCons, hCommits⟩ := Term.step_key hStep
    refine ⟨⟨?_, ?_, hCommits ▸ h.lines⟩, ?_⟩
    · rw [hCons, ring_of_key, kbdputsc_nul hKey, not_or]
      exact ⟨h.ring, hOk⟩
    · rw [hCons, kbdputcs_eq]
      exact h.queue
    · rw [hCons, kbdputcs_eq]
      exact h.raw
  | tick cpuserver room room' =>
    obtain rfl := Option.some.inj hStep
    obtain ⟨hKbd, hMoved⟩ := kbdputcclock_moves cpuserver room room' t.cons
    refine ⟨⟨?_, ?_, h.lines⟩, ?_⟩
    · rw [hKbd, RingBuf.contents_drain]
      exact List.not_mem_nil
    · -- a NUL in the queue would have been there, or in the ring
      exact fun hNul => (hMoved 0 hNul).elim h.queue h.ring
    · rw [hKbd]
      exact h.raw
  | conswrite text =>
    simp only [Term.step, Option.ite_none_left_eq_some, Option.some.injEq, Bool.not_eq_true] at hStep
    obtain ⟨hText, rfl⟩ := hStep
    obtain ⟨hRaw, hQueue, hRing⟩ := conswriteCtl_cooked hText h.raw
    refine ⟨⟨?_, ?_, h.lines⟩, hRaw⟩
    · rw [hRing]
      exact h.ring
    · rw [hQueue]
      exact h.queue
  | turn =>
    simp only [Term.step, Option.ite_none_left_eq_some, not_not] at hStep
    obtain ⟨hLineq, hStep⟩ := hStep
    have hQueue := h.queue
    cases hKbdq : t.cons.kbdq with
    | nil => simp [hKbdq] at hStep
    | cons c q =>
      rw [hKbdq, List.mem_cons, not_or] at hQueue
      simp only [hKbdq] at hStep
      cases hTurn : consturn { t.cons with kbdq := q } c with
      | none => simp [hTurn] at hStep
      | some s' =>
        simp only [hTurn, Option.some.injEq] at hStep
        subst hStep
        -- the byte of this pass comes from the queue, so it is no NUL
        obtain ⟨hRaw, hSame, hRing, hBlocks⟩ :=
          consturn_cooked hTurn h.raw (Ne.symm hQueue.1) hLineq
        refine ⟨⟨?_, ?_, ?_⟩, hRaw⟩
        · rw [hRing]
          exact h.ring
        · rw [hSame]
          exact hQueue.2
        · intro b hb
          rcases List.mem_append.mp hb with hb | hb
          · exact h.lines b hb
          · obtain ⟨block, hBlock, rfl⟩ := List.mem_map.mp hb
            exact hBlocks block hBlock
  | read n =>
    cases hRead : qreadLine n t.cons.lineq with
    | none => simp [Term.step, hRead] at hStep
    | some r =>
      simp only [Term.step, hRead, Option.some.injEq] at hStep
      subst hStep
      exact ⟨⟨h.ring, h.queue, h.lines⟩, h.raw⟩

/-- A key that injects a NUL leaves it in the ring. -/
theorem TermInv.broken (hBad : ¬ t.NoNul latin1 o) (hStep : t.step latin1 o = some t') :
    ¬ t'.Whole := by
  cases o with
  | key external c =>
    obtain ⟨k, g, rs, hKey, hCons, -⟩ := Term.step_key hStep
    intro hWhole
    refine hWhole.ring ?_
    rw [hCons, ring_of_key, kbdputsc_nul hKey]
    exact Or.inr (not_not.mp hBad)
  | tick cpuserver room room' => exact absurd trivial hBad
  | conswrite text => exact absurd trivial hBad
  | turn => exact absurd trivial hBad
  | read n => exact absurd trivial hBad

end

/-- With the default tables and without `rawon`: no NUL is under way, and only a
newline, a `^D` and a full line deliver, all the time exactly in the runs in which no
key puts a NUL into the ring. -/
theorem partial_line_exact (latin1 : List Rune → Int) {os : List TermOp} {t : Term}
    (h : run (Term.step latin1) {} os = some t) :
    Throughout (Term.step latin1) Term.Whole {} os ↔
      Always (Term.step latin1) (Term.NoNul latin1) {} os :=
  throughout_iff_always (I := TermInv) (fun _ _ _ hInv hOk hStep => hInv.step hOk hStep)
    (fun _ hInv => hInv.toWhole) (fun _ _ _ _ hBad hStep => TermInv.broken hBad hStep)
    termInv_boot h

/-- `a` and the newline are typed and echoed, and the line is read. -/
def typedLine : List TermOp :=
  [.key false 0x1e, .tick false true true, .turn, .key false 0x1c, .tick false true true, .turn,
    .read 16]

/-- The line is delivered at its newline. -/
theorem partial_line_exact_typed :
    ∃ t, run (Term.step fun _ => -1) {} typedLine = some t ∧
      t.commits = [(ascii "a\n", Newline)] ∧
      Throughout (Term.step fun _ => -1) Term.Whole {} typedLine := by
  obtain ⟨t, hRun, hCommits⟩ : ∃ t, run (Term.step fun _ => -1) {} typedLine = some t ∧
      t.commits = [(ascii "a\n", Newline)] := ⟨_, rfl, by rfl⟩
  exact ⟨t, hRun, hCommits, (partial_line_exact (fun _ => -1) hRun).mpr (by decide +kernel)⟩

/-- `a` and then the scan code 0x54, which the tables do not have: the reader gets the
`a` without a newline. -/
theorem unmapped_key_delivers : ∃ t : Term,
    run (Term.step fun _ => -1) {} [.key false 0x1e, .tick false true true, .turn,
      .key false 0x54, .tick false true true, .turn] = some t ∧
      t.commits = [([ch 'a'], 0)] ∧ ¬ t.Whole := by
  have hRun : ∃ t : Term,
      run (Term.step fun _ => -1) {} [.key false 0x1e, .tick false true true, .turn,
        .key false 0x54, .tick false true true, .turn] = some t ∧ t.commits = [([ch 'a'], 0)] :=
    ⟨_, rfl, by rfl⟩
  obtain ⟨t, hT, hCommits⟩ := hRun
  refine ⟨t, hT, hCommits, fun hWhole => ?_⟩
  have hLine := hWhole.lines ([ch 'a'], 0) (by rw [hCommits]; exact List.mem_singleton_self _)
  revert hLine
  decide

end Glendum
