import Glendum.Console.Staging
import Glendum.Lib.Code

/-!
# Glendum — runes in the staging ring

`kbdputc` puts the bytes of a rune on the ring one by one and looks for room before each
of them, so a ring that is almost full takes the beginning of a rune and drops the rest.
Runes are the 16-bit ones of this system, of at most three bytes; a stream is UTF-8 when
it is the bytes of runes, one rune behind the other.

* `runetochar_code` — no rune begins another one;
* `StagedWhole`, `Fits` — when a call of `kbdputc` puts all of a rune on the ring, or
  nothing;
* `rune_staging_exact` — the runs in which what the ring delivers is UTF-8.
-/

namespace Glendum

open Machine Trace RingBuf Codes

/-! ## The bytes of a rune -/

section

variable {r r' : Rune} {b : Byte}

/-- A high part above bits that are free. -/
theorem or_high {k a b : Nat} (h : b < 2 ^ k) : 2 ^ k * a ||| b = 2 ^ k * a + b :=
  (Nat.two_pow_add_eq_or_of_lt h a).symm

theorem toNat_cont {x : Rune} : (0x80 ||| (x &&& 0x3F).setWidth 8 : Byte).toNat = 128 + x.toNat % 64 := by
  have hLow : x.toNat &&& 63 = x.toNat % 64 := Nat.and_two_pow_sub_one_eq_mod x.toNat 6
  have hFree : x.toNat % 64 < 2 ^ 6 := by omega
  rw [BitVec.toNat_or, BitVec.toNat_setWidth, BitVec.toNat_and]
  show 128 ||| (x.toNat &&& 63) % 256 = _
  rw [hLow, Nat.mod_eq_of_lt (by omega)]
  exact or_high (a := 2) hFree

theorem toNat_shift (r : Rune) (k : Nat) : (r >>> k).toNat = r.toNat / 2 ^ k := by
  rw [BitVec.toNat_ushiftRight, Nat.shiftRight_eq_div_pow]

/-- The UTF-8 bytes as numbers. -/
theorem runetochar_toNat (r : Rune) : (runetochar r).map BitVec.toNat =
    if r.toNat < 0x80 then [r.toNat]
    else if r.toNat < 0x800 then [0xC0 + r.toNat / 64, 0x80 + r.toNat % 64]
    else [0xE0 + r.toNat / 4096, 0x80 + r.toNat / 64 % 64, 0x80 + r.toNat % 64] := by
  have hWide : r.toNat < 65536 := r.isLt
  -- the bounds of the source are inclusive, the ones of the statement are not
  have hOne : r ≤ 0x7F ↔ r.toNat < 0x80 := by
    rw [BitVec.le_def]
    exact Nat.lt_succ_iff.symm
  have hTwo : r ≤ 0x7FF ↔ r.toNat < 0x800 := by
    rw [BitVec.le_def]
    exact Nat.lt_succ_iff.symm
  unfold runetochar
  by_cases hSmall : r.toNat < 0x80
  · rw [if_pos (hOne.mpr hSmall), if_pos hSmall, List.map_singleton, BitVec.toNat_setWidth,
      Nat.mod_eq_of_lt (by omega)]
  rw [if_neg fun h => hSmall (hOne.mp h), if_neg hSmall]
  by_cases hMid : r.toNat < 0x800
  · rw [if_pos (hTwo.mpr hMid), if_pos hMid]
    -- the mark is above the bits of the rune, so the disjunction is a sum
    have hFirst : (0xC0 ||| (r >>> 6).setWidth 8 : Byte).toNat = 0xC0 + r.toNat / 64 := by
      have hFree : r.toNat / 64 < 2 ^ 6 := by omega
      rw [BitVec.toNat_or, BitVec.toNat_setWidth, toNat_shift, Nat.mod_eq_of_lt (by omega)]
      exact or_high (a := 3) hFree
    exact congrArg₂ List.cons hFirst (congrArg (· :: []) toNat_cont)
  · rw [if_neg fun h => hMid (hTwo.mp h), if_neg hMid]
    have hFirst : (0xE0 ||| (r >>> 12).setWidth 8 : Byte).toNat = 0xE0 + r.toNat / 4096 := by
      have hFree : r.toNat / 4096 < 2 ^ 5 := by omega
      rw [BitVec.toNat_or, BitVec.toNat_setWidth, toNat_shift, Nat.mod_eq_of_lt (by omega)]
      exact or_high (a := 7) hFree
    have hSecond : (0x80 ||| ((r >>> 6) &&& 0x3F).setWidth 8 : Byte).toNat =
        0x80 + r.toNat / 64 % 64 := by
      refine (toNat_cont (x := r >>> 6)).trans ?_
      rw [toNat_shift]
      rfl
    exact congrArg₂ List.cons hFirst (congrArg₂ List.cons hSecond (congrArg (· :: []) toNat_cont))

theorem length_runetochar (r : Rune) : (runetochar r).length =
    if r.toNat < 0x80 then 1 else if r.toNat < 0x800 then 2 else 3 := by
  have hLen := congrArg List.length (runetochar_toNat r)
  rw [List.length_map] at hLen
  rw [hLen]
  split
  · rfl
  · split <;> rfl

theorem runetochar_code : PrefixCode runetochar where
  ne_nil r h := by
    have hLen := length_runetochar r
    rw [h] at hLen
    split at hLen
    · cases hLen
    · split at hLen <;> cases hLen
  unique a b h := by
    have hNat : (runetochar a).map BitVec.toNat <+: (runetochar b).map BitVec.toNat := h.map _
    have ha := a.isLt
    have hb := b.isLt
    apply BitVec.eq_of_toNat_eq
    -- the first byte tells how many there are, and the bytes tell the rune
    rw [runetochar_toNat, runetochar_toNat] at hNat
    split_ifs at hNat
    all_goals
      simp only [List.cons_prefix_cons, List.nil_prefix, List.prefix_nil, reduceCtorEq, and_true,
        and_false] at hNat
    all_goals omega

end

/-! ## One call -/

/-- How many more bytes the ring takes. -/
def Staging.room (s : Staging) : Nat := LINESIZE - 1 - s.q.contents.length

/-- The call appends all bytes of the rune to the ring, or leaves the ring as it was. -/
def StagedWhole (s : Staging) (r : Rune) : Prop :=
  ∃ s', s.step (.kbdputc r) = some s' ∧
    (s'.q.contents = s.q.contents ++ runetochar r ∨ s'.q = s.q)

/-- The ring is full, or it has room for the rune. -/
def Fits (s : Staging) (r : Rune) : Prop := s.room = 0 ∨ (runetochar r).length ≤ s.room

section

variable {s : Staging} {q : RingBuf Byte LINESIZE} {passed : List Byte} {r : Rune}

theorem StageInv.room (h : StageInv s q passed) : s.room = q.room := by
  rw [Staging.room, h.ring, ptrs_contents]
  rfl

/-- A producer's bytes are accepted as far as there is room. -/
theorem StageInv.accepts (h : StageInv s q passed) (cs : List Byte) :
    ∃ s', s.puts cs = some s' ∧ StageInv s' (cs.foldl put q) passed ∧
      s'.accepted = s.accepted ++ cs.take s.room := by
  obtain ⟨s', -, hMove, hInv, -⟩ := h.puts cs
  refine ⟨s', hMove, hInv, ?_⟩
  rw [hInv.accepted, contents_puts, h.accepted, h.room, List.append_assoc]

theorem stagedWhole_iff (h : StageInv s q passed) (r : Rune) : StagedWhole s r ↔ Fits s r := by
  obtain ⟨s', hMove, hInv, -⟩ := h.accepts (runetochar r)
  have hContents : s'.q.contents = s.q.contents ++ (runetochar r).take s.room := by
    rw [hInv.ring, h.ring, ptrs_contents, ptrs_contents, contents_puts, h.room]
  constructor
  · rintro ⟨t, hStep, hWhole⟩
    obtain rfl : s' = t := Option.some.inj (hMove.symm.trans hStep)
    rcases hWhole with hAll | hNone
    · rw [hContents, List.append_cancel_left_eq, List.take_eq_self_iff] at hAll
      exact Or.inr hAll
    · -- nothing was taken of a rune that has bytes
      rw [hNone, List.self_eq_append_right, List.take_eq_nil_iff] at hContents
      exact Or.inl (hContents.resolve_right (runetochar_code.ne_nil r))
  · rintro (hFull | hRoom)
    · refine ⟨s', hMove, Or.inr ?_⟩
      rw [hInv.ring, puts_full (room_eq_zero.mp (h.room ▸ hFull)), h.ring]
    · refine ⟨s', hMove, Or.inl ?_⟩
      rw [hContents, List.take_of_length_le hRoom]

end

/-! ## Runs -/

/-- The steps when all input comes through `kbdputc`. -/
inductive RuneOp
  | kbdputc (r : Rune)
  | raw (on : Bool)
  | clock

def RuneOp.toStage : RuneOp → StageOp
  | .kbdputc r => .kbdputc r
  | .raw on => .raw on
  | .clock => .clock

def Staging.runeStep (s : Staging) (o : RuneOp) : Option Staging := s.step o.toStage

/-- What was put on the ring is UTF-8, and so is what the clock has handed on of it once
the ring is empty. -/
structure Staging.Utf (s : Staging) : Prop where
  staged : Spelled runetochar s.accepted
  handed : s.q.contents = [] → Spelled runetochar s.handed

def Staging.RuneFits (s : Staging) : RuneOp → Prop
  | .kbdputc r => Fits s r
  | .raw _ | .clock => True

/-- The ring behind the pointers, with a stream of whole runes. -/
def RuneInv (s : Staging) : Prop :=
  (∃ q passed, StageInv s q passed) ∧ Spelled runetochar s.accepted

section

variable {s s' : Staging} {o : RuneOp}

/-- All of the stream has been handed on when the ring is empty. -/
theorem Staging.Lossless.handed_all (h : s.Lossless) (hEmpty : s.q.contents = []) :
    s.handed = s.accepted := by
  obtain ⟨passed, hPassed, hKept⟩ := h.kept
  rw [hEmpty, List.append_nil] at hKept
  subst hKept
  exact h.order.eq_of_length_le hPassed.length_le

theorem RuneInv.utf (h : RuneInv s) : s.Utf := by
  obtain ⟨⟨q, passed, hInv⟩, hStream⟩ := h
  refine ⟨hStream, fun hEmpty => ?_⟩
  rw [hInv.lossless.handed_all hEmpty]
  exact hStream

/-- What a step accepts of a rune. -/
theorem RuneInv.accepted (h : RuneInv s) (hStep : s.runeStep o = some s') :
    (∃ q passed, StageInv s' q passed) ∧
      s'.accepted = s.accepted ++ (o.toStage.bytes s.raw).take s.room := by
  obtain ⟨⟨q, passed, hInv⟩, -⟩ := h
  cases o with
  | kbdputc r =>
    obtain ⟨t, hMove, hNext, hAccepted⟩ := hInv.accepts (runetochar r)
    obtain rfl : t = s' := Option.some.inj (hMove.symm.trans hStep)
    exact ⟨⟨_, _, hNext⟩, hAccepted⟩
  | raw on =>
    obtain rfl := Option.some.inj hStep
    refine ⟨⟨q, passed, hInv.ring, hInv.accepted, hInv.clock⟩, ?_⟩
    rw [RuneOp.toStage, StageOp.bytes, List.take_nil, List.append_nil]
  | clock =>
    obtain ⟨t, q', passed', hMove, hNext, -, hSame⟩ := hInv.clock_step
    obtain rfl : t = s' := Option.some.inj (hMove.symm.trans hStep)
    refine ⟨⟨q', passed', hNext⟩, ?_⟩
    rw [RuneOp.toStage, StageOp.bytes, List.take_nil, List.append_nil, hSame]

theorem RuneInv.step (h : RuneInv s) (hFits : s.RuneFits o) (hStep : s.runeStep o = some s') :
    RuneInv s' := by
  obtain ⟨hRing, hAccepted⟩ := h.accepted hStep
  refine ⟨hRing, ?_⟩
  rw [hAccepted]
  refine h.2.append ?_
  cases o with
  | kbdputc r =>
    -- nothing of the rune, or all of it
    rcases hFits with hFull | hRoom
    · rw [hFull, List.take_zero]
      exact Spelled.nil
    · rw [RuneOp.toStage, StageOp.bytes, List.take_of_length_le hRoom]
      exact Spelled.word r
  | raw on => exact (List.take_nil (α := Byte)) ▸ Spelled.nil
  | clock => exact (List.take_nil (α := Byte)) ▸ Spelled.nil

/-- A rune that is cut leaves a stream that is not UTF-8. -/
theorem RuneInv.cut (h : RuneInv s) (hNot : ¬ s.RuneFits o) (hStep : s.runeStep o = some s') :
    ¬ s'.Utf := by
  cases o with
  | kbdputc r =>
    rw [Staging.RuneFits, Fits, not_or, not_le] at hNot
    intro hUtf
    -- there was some room, but not for all of the rune
    have hSome : 0 < s.room := Nat.pos_of_ne_zero hNot.1
    have hStaged := hUtf.staged
    rw [(h.accepted hStep).2, RuneOp.toStage, StageOp.bytes,
      runetochar_code.spelled_cut h.2 hSome] at hStaged
    omega
  | raw on => exact absurd trivial hNot
  | clock => exact absurd trivial hNot

end

/-- A call of `kbdputc` stages its rune whole or not at all exactly when the ring is full or
has room for the rune; and what a ring fed by `kbdputc` alone delivers is UTF-8 all the time
exactly in the runs in which every call finds the ring so. -/
theorem rune_staging_exact (ops : List StageOp) (os : List RuneOp) :
    (∃ s, run Staging.step .start ops = some s ∧ ∀ r, StagedWhole s r ↔ Fits s r) ∧
    (Throughout Staging.runeStep Staging.Utf .start os ↔
      Always Staging.runeStep Staging.RuneFits .start os) := by
  constructor
  · obtain ⟨s, hRun, q, passed, h⟩ := staging_run id ops
    exact ⟨s, hRun, stagedWhole_iff h⟩
  · obtain ⟨s, hRun, -⟩ := staging_run RuneOp.toStage os
    exact throughout_iff_always (I := RuneInv) (fun _ _ _ hInv hFits hStep => hInv.step hFits hStep)
      (fun _ hInv => hInv.utf) (fun _ _ _ hInv hNot hStep => hInv.cut hNot hStep)
      ⟨⟨_, _, staging_start⟩, Spelled.nil⟩ hRun

/-! ## A rune that is cut -/

/-- Runes that fit, put one behind the other. -/
theorem puts_runes {s : Staging} {q : RingBuf Byte LINESIZE} {passed : List Byte}
    (h : StageInv s q passed) (rs : List Rune) :
    ∃ s', run Staging.step s (rs.map .kbdputc) = some s' ∧
      StageInv s' ((rs.flatMap runetochar).foldl put q) passed := by
  induction rs generalizing s q with
  | nil => exact ⟨s, rfl, h⟩
  | cons r rs ih =>
    obtain ⟨s1, hMove, hInv, -⟩ := h.accepts (runetochar r)
    obtain ⟨s', hRest, hLast⟩ := ih hInv
    refine ⟨s', ?_, ?_⟩
    · rw [List.map_cons, run, show s.step (.kbdputc r) = some s1 from hMove, Option.bind_some, hRest]
    · rw [List.flatMap_cons, List.foldl_append]
      exact hLast

/-- The ring has one place left when the two bytes of `é` come. -/
theorem kbdputc_cuts : ∃ s,
    run Staging.step .start ((List.replicate 1022 (rune 'a')).map .kbdputc) = some s ∧
      ¬ StagedWhole s 0xe9 := by
  obtain ⟨s, hRun, hInv⟩ := puts_runes staging_start (List.replicate 1022 (rune 'a'))
  refine ⟨s, hRun, ?_⟩
  have hBytes : (List.replicate 1022 (rune 'a')).flatMap runetochar = List.replicate 1022 (ch 'a') := by
    rw [List.flatMap_replicate, show runetochar (rune 'a') = [ch 'a'] from rfl,
      List.flatten_replicate_singleton]
  have hRoom : s.room = 1 := by
    rw [hInv.room, hBytes, RingBuf.room, contents_puts, List.length_append, List.length_take,
      List.length_replicate]
    rfl
  rw [stagedWhole_iff hInv, Fits, hRoom]
  decide

end Glendum
