import Glendum.Arch.Mtrr
import Glendum.Lib.Latest
import Glendum.Lib.Trace

/-!
# Glendum — the table of the memory types

The registers are a table of ranges: those that are in use come first, and a new range takes the
place of one that can be taken, or comes behind all others. A call that finds no place leaves
`mtrrlk` locked, and the next call that gets so far sleeps.

* `mtrr_table` — in every run the calls answer, and the registers print, as the table says;
* `mtrr_effective` — after any calls for ranges below 4GB, no more of them than there are registers,
  the processor finds for every address the types that were last given to the ranges around it.
-/

namespace Glendum

open Machine

/-! ## The table -/

/-- An entry that `mtrr` takes for a range. -/
def Range.taken (q : Range) (base size : Uvlong) : Bool :=
  decide (q.base = base ∧ q.size = size ∨ q.base ≥ 1 <<< 32)

structure MtrrTable where
  ranges : List Range
  locked : Bool

def putRange (t : List Range) (i : Nat) (q : Range) : List Range :=
  if i < t.length then t.set i q else t ++ [q]

namespace Processor

variable (P : Processor)

/-- The number of entries that a table can have. -/
def slots : Nat := min P.vcnt Nmtrr

/-- The place of a range in the table. -/
def place (t : List Range) (base size : Uvlong) : Option Nat :=
  match (t.take Nmtrr).findIdx? fun q => q.taken base size with
  | some i => some i
  | none => if t.length < P.slots then some t.length else none

/-- What `mtrr` says when there is no place. -/
def full : String := if P.vcnt ≤ Nmtrr then "no free mtrr slots" else "mtrr index out of range"

def tableMtrr (t : MtrrTable) (c : MtrrCall) : MtrrAnswer × MtrrTable :=
  match P.mtrrcheck c with
  | .error msg => (.error msg, t)
  | .ok type =>
    if t.locked then (.sleeps, t) else
    match P.place t.ranges c.base c.size with
    | none => (.error P.full, { t with locked := true })
    | some i => (.done, { t with ranges := putRange t.ranges i (P.stored c.base c.size type) })

def tablePrint (t : MtrrTable) (bufsize : Nat) : Except String (List Byte) :=
  if !P.mtrrs then .ok [] else
  if P.vcnt ≤ Nmtrr then .ok (snprint bufsize (P.defaultLine ++ t.ranges.flatMap Range.line))
  else .error "mtrr index out of range"

end Processor

/-- A call and its answer. -/
abbrev MtrrEvent := MtrrCall × MtrrAnswer

variable {P : Processor}

def Mtrrs.step (s : Mtrrs P) (e : MtrrEvent) : Option (Mtrrs P) :=
  if (P.mtrr s e.1).1 = e.2 then some (P.mtrr s e.1).2 else none

def MtrrTable.step (P : Processor) (t : MtrrTable) (e : MtrrEvent) : Option MtrrTable :=
  if (P.tableMtrr t e.1).1 = e.2 then some (P.tableMtrr t e.1).2 else none

/-- The registers hold the table, and behind it there is nothing. -/
structure Mtrrs.Holds (s : Mtrrs P) (t : MtrrTable) : Prop where
  lock : s.mtrrlk = t.locked
  regs : ∃ n, s.regs.map P.mtrrdec = t.ranges.map some ++ List.replicate n none

/-! ## The search -/

section

variable {s s' : Mtrrs P} {t : MtrrTable} {c : MtrrCall} {base size : Uvlong} {type k : Nat}

/-- Registers that `mtrr` takes. -/
def vacant (base size : Uvlong) (o : Option Range) : Bool :=
  o.elim true fun q => q.taken base size

/-- The search takes the first register that is vacant. -/
theorem mtrrslot_eq {i : Nat} (hi : i ≤ Nmtrr) (rs : List Mtrreg) :
    P.mtrrslot base size i rs =
      match ((rs.map P.mtrrdec).take (Nmtrr - i)).findIdx? (vacant base size) with
      | some j => .ok (some (i + j))
      | none => if rs.length ≤ Nmtrr - i then .ok none else .error "mtrr index out of range" := by
  induction rs generalizing i with
  | nil =>
    rw [List.map_nil, List.take_nil]
    exact (if_pos (Nat.zero_le _)).symm
  | cons r rs ih =>
    rw [Processor.mtrrslot]
    by_cases hEnd : i ≥ Nmtrr
    · -- `mtrrget` of one register more is an error
      obtain rfl : i = Nmtrr := Nat.le_antisymm hi hEnd
      rw [if_pos hEnd, Nat.sub_self, List.take_zero]
      rfl
    · rw [if_neg hEnd, mtrrdec_sanity]
      have hSucc : Nmtrr - i = (Nmtrr - (i + 1)) + 1 := by omega
      rw [hSucc, List.map_cons, List.take_succ_cons, List.findIdx?_cons]
      cases hDec : P.mtrrdec r with
      -- a register that is not valid will do
      | none => rfl
      | some q =>
        have hFree : vacant base size (some q) =
            decide (q.base = base ∧ q.size = size ∨ q.base ≥ 1 <<< 32) := rfl
        by_cases hTaken : q.base = base ∧ q.size = size ∨ q.base ≥ 1 <<< 32
        · rw [hFree, decide_eq_true hTaken, if_pos rfl]
          exact if_pos hTaken
        · rw [hFree, decide_eq_false hTaken, if_neg Bool.false_ne_true]
          show (if _ then _ else _) = _
          rw [if_neg hTaken, ih (by omega)]
          cases ((rs.map P.mtrrdec).take (Nmtrr - (i + 1))).findIdx? (vacant base size) with
          | none =>
            show (if rs.length ≤ _ then _ else _) = if (r :: rs).length ≤ _ then _ else _
            rw [List.length_cons]
            by_cases hLen : rs.length ≤ Nmtrr - (i + 1)
            · rw [if_pos hLen, if_pos (by omega)]
            · rw [if_neg hLen, if_neg (by omega)]
          | some j =>
            show Except.ok (some (i + 1 + j)) = Except.ok (some (i + (j + 1)))
            rw [Nat.add_assoc, Nat.add_comm 1 j]

/-- The first of the registers that are behind the table. -/
theorem findIdx?_vacant (n m : Nat) (qs : List Range) :
    ((qs.map some ++ List.replicate n none).take m).findIdx? (vacant base size) =
      match (qs.take m).findIdx? fun q => q.taken base size with
      | some i => some i
      | none => if qs.length < min (qs.length + n) m then some qs.length else none := by
  induction qs generalizing m with
  | nil =>
    rw [List.map_nil, List.nil_append, List.take_nil, List.take_replicate]
    show _ = if 0 < min (0 + n) m then some 0 else none
    rw [Nat.zero_add, Nat.min_comm]
    -- the first of the empty ones, if there is one
    cases hMin : min n m with
    | zero => rfl
    | succ j =>
      rw [if_pos (Nat.succ_pos j), List.replicate_succ]
      rfl
  | cons q qs ih =>
    cases m with
    | zero =>
      rw [List.take_zero, List.take_zero, Nat.min_zero]
      rfl
    | succ m =>
      rw [List.map_cons, List.cons_append, List.take_succ_cons, List.take_succ_cons, List.findIdx?_cons,
        List.findIdx?_cons, ih]
      show (if q.taken base size = true then _ else _) = _
      cases q.taken base size with
      | true => rfl
      | false =>
        rw [if_neg Bool.false_ne_true, if_neg Bool.false_ne_true]
        cases (qs.take m).findIdx? fun q => q.taken base size with
        | some i => rfl
        | none =>
          show Option.map _ (if _ then _ else _) = if _ then _ else _
          rw [List.length_cons]
          by_cases hLess : qs.length < min (qs.length + n) m
          · rw [if_pos hLess, if_pos (by omega)]
            rfl
          · rw [if_neg hLess, if_neg (by omega)]
            rfl

/-- The loop finds the place in the table. -/
theorem Mtrrs.Holds.slot (h : s.Holds t) : P.mtrrslot base size 0 s.regs =
    match P.place t.ranges base size with
    | some i => .ok (some i)
    | none => if P.vcnt ≤ Nmtrr then .ok none else .error "mtrr index out of range" := by
  obtain ⟨n, hRegs⟩ := h.regs
  have hLen : P.vcnt = t.ranges.length + n := by
    rw [← s.vcnt, ← List.length_map (f := P.mtrrdec), hRegs, List.length_append, List.length_map,
      List.length_replicate]
  rw [mtrrslot_eq (Nat.zero_le _), hRegs, Nat.sub_zero, findIdx?_vacant, s.vcnt]
  unfold Processor.place Processor.slots
  rw [← hLen]
  cases (t.ranges.take Nmtrr).findIdx? fun q => q.taken base size with
  | some i =>
    show Except.ok (some (0 + i)) = _
    rw [Nat.zero_add]
  | none =>
    by_cases hLess : t.ranges.length < min P.vcnt Nmtrr
    · simp only [if_pos hLess, Nat.zero_add]
    · simp only [if_neg hLess]

/-! ## One call -/

/-- What a request that is taken has been checked for. -/
structure Sound (base size : Uvlong) (type k : Nat) : Prop where
  page    : 12 ≤ k
  width   : k < 64
  size    : size = BitVec.twoPow 64 k
  aligned : base &&& low 64 k = 0
  base    : base &&& pageLow = 0
  type    : type < 8

/-- Every type has a number below 7. -/
theorem str2type_lt {str : CStr} (h : str2type str = some type) : type < 7 := by
  obtain ⟨hLt, -⟩ := List.findIdx?_eq_some_iff_getElem.mp h
  exact hLt

/-- A request that passes the checks has a size that is a power of two, and a base that fits it.
-/
theorem check_sound (h : P.mtrrcheck c = .ok type) : ∃ k, Sound c.base c.size type k := by
  unfold Processor.mtrrcheck at h
  by_cases hMtrrs : (!P.mtrrs) = true
  · rw [if_pos hMtrrs] at h
    cases h
  rw [if_neg hMtrrs] at h
  by_cases hPage : c.base &&& pageLow ≠ 0 ∨ c.size &&& pageLow ≠ 0 ∨ c.size = 0
  · rw [if_pos hPage] at h
    cases h
  rw [if_neg hPage] at h
  by_cases hRange : c.base + c.size ≥ Paerange
  · rw [if_pos hRange] at h
    cases h
  rw [if_neg hRange] at h
  by_cases hPow : (!ispow2 c.size) = true
  · rw [if_pos hPow] at h
    cases h
  rw [if_neg hPow] at h
  by_cases hAligned : c.base &&& (c.size - 1) ≠ 0
  · rw [if_pos hAligned] at h
    cases h
  rw [if_neg hAligned] at h
  rw [ne_eq, not_not] at hAligned
  rw [not_or, not_or, ne_eq, ne_eq, not_not, not_not] at hPage
  obtain ⟨hBase, hSize, hZero⟩ := hPage
  have hTwo : c.size &&& (c.size - 1) = 0 := by
    unfold ispow2 at hPow
    rw [Bool.not_eq_true, Bool.not_eq_false'] at hPow
    exact eq_of_beq hPow
  obtain ⟨k, hk, hSizeEq⟩ := exists_twoPow hZero hTwo
  have hTwelve : 12 ≤ k := by
    -- a size of whole pages has no lower bit
    rw [hSizeEq, pageLow_eq] at hSize
    by_contra hSmall
    have hBit := getLsbD_of_aligned hSize (by omega : k < 12)
    rw [BitVec.getLsbD_twoPow, decide_eq_true hk, decide_eq_true rfl] at hBit
    cases hBit
  rw [hSizeEq, twoPow_sub_one hk] at hAligned
  refine ⟨k, hTwelve, hk, hSizeEq, hAligned, hBase, ?_⟩
  cases hType : str2type c.tstr with
  | none =>
    rw [hType] at h
    cases h
  | some type' =>
    rw [hType] at h
    have hLt := str2type_lt hType
    have hEq : type' = type := by
      by_cases hUnknown : type' = 2 ∨ type' = 3
      · simp only [if_pos hUnknown] at h
        cases h
      · simp only [if_neg hUnknown] at h
        by_cases hWc : type' = Writecomb ∧ P.cap &&& Capwc = 0
        · simp only [if_pos hWc] at h
          cases h
        · simp only [if_neg hWc] at h
          exact Except.ok.inj h
    omega

/-- A range is decoded from its code. -/
theorem Sound.dec (h : Sound base size type k) :
    P.mtrrdec (sanity (P.mtrrenc base size type true)) = some (P.stored base size type) := by
  rw [mtrrdec_sanity, h.size]
  exact dec_enc h.width h.page h.base h.type

/-- A range is written to the register of its place. -/
theorem map_dec_set {rs : List Mtrreg} {qs : List Range} {n i : Nat} {e : Mtrreg} {q : Range}
    (hRegs : rs.map P.mtrrdec = qs.map some ++ List.replicate n none) (hDec : P.mtrrdec e = some q)
    (hi : i ≤ qs.length) (hRoom : i < qs.length + n) :
    ∃ n', (rs.set i e).map P.mtrrdec = (putRange qs i q).map some ++ List.replicate n' none := by
  rw [List.map_set, hRegs, hDec]
  unfold putRange
  by_cases hOld : i < qs.length
  · refine ⟨n, ?_⟩
    rw [if_pos hOld, List.set_append_left _ _ (by rw [List.length_map]; exact hOld), ← List.map_set]
  · -- the first of the registers that are not in use
    obtain rfl : i = qs.length := by omega
    obtain ⟨m, rfl⟩ : ∃ m, n = m + 1 := ⟨n - 1, by omega⟩
    refine ⟨m, ?_⟩
    rw [if_neg hOld, List.set_append_right _ _ (by rw [List.length_map]), List.length_map, Nat.sub_self,
      List.replicate_succ, List.set_cons_zero, List.map_append, List.append_assoc]
    rfl

/-- A place is in the table, or right behind it when a register is left. -/
theorem place_le {qs : List Range} {i : Nat} (h : P.place qs base size = some i) :
    i ≤ qs.length ∧ (i < qs.length ∨ qs.length < P.slots) := by
  unfold Processor.place at h
  cases hFind : (qs.take Nmtrr).findIdx? fun q => q.taken base size with
  | some j =>
    rw [hFind] at h
    obtain rfl := Option.some.inj h
    obtain ⟨hLt, -⟩ := List.findIdx?_eq_some_iff_getElem.mp hFind
    rw [List.length_take] at hLt
    exact ⟨by omega, Or.inl (by omega)⟩
  | none =>
    rw [hFind] at h
    obtain ⟨hLess, hEq⟩ := Option.ite_none_right_eq_some.mp h
    obtain rfl := Option.some.inj hEq
    exact ⟨Nat.le_refl _, Or.inr hLess⟩

/-- The table and what is left are all the registers. -/
theorem Mtrrs.Holds.length (h : s.Holds t) : ∃ n, P.vcnt = t.ranges.length + n ∧
    s.regs.map P.mtrrdec = t.ranges.map some ++ List.replicate n none := by
  obtain ⟨n, hRegs⟩ := h.regs
  refine ⟨n, ?_, hRegs⟩
  rw [← s.vcnt, ← List.length_map (f := P.mtrrdec), hRegs, List.length_append, List.length_map,
    List.length_replicate]

/-- A call does to the registers what it does to the table. -/
theorem mtrr_step (h : s.Holds t) (c : MtrrCall) :
    (P.mtrr s c).1 = (P.tableMtrr t c).1 ∧ (P.mtrr s c).2.Holds (P.tableMtrr t c).2 := by
  unfold Processor.mtrr Processor.tableMtrr
  cases hCheck : P.mtrrcheck c with
  | error msg => exact ⟨rfl, h⟩
  | ok type =>
    obtain ⟨k, hSound⟩ := check_sound hCheck
    dsimp only
    rw [h.lock]
    by_cases hLocked : t.locked = true
    · rw [if_pos hLocked, if_pos hLocked]
      exact ⟨rfl, h⟩
    · rw [if_neg hLocked, if_neg hLocked, h.slot]
      obtain ⟨n, hCount, hRegs⟩ := h.length
      cases hPlace : P.place t.ranges c.base c.size with
      | none =>
        dsimp only
        -- both errors leave the lock held
        unfold Processor.full
        by_cases hFew : P.vcnt ≤ Nmtrr
        · rw [if_pos hFew, if_pos hFew]
          exact ⟨rfl, rfl, n, hRegs⟩
        · rw [if_neg hFew, if_neg hFew]
          exact ⟨rfl, rfl, n, hRegs⟩
      | some i =>
        obtain ⟨hLe, hRoom⟩ := place_le hPlace
        have hIn : i < t.ranges.length + n := by
          rcases hRoom with hOld | hFree
          · omega
          · have hSlots : P.slots ≤ P.vcnt := Nat.min_le_left _ _
            omega
        exact ⟨rfl, rfl, map_dec_set hRegs hSound.dec hLe hIn⟩

/-! ## The text -/

/-- Line after line is printed as far as there is room. -/
theorem printRegs_eq {bufsize i : Nat} (hi : i ≤ Nmtrr) (text : List Byte) (rs : List Mtrreg) :
    P.printRegs bufsize i (snprint bufsize text) rs =
      if rs.length ≤ Nmtrr - i then
        .ok (snprint bufsize (text ++ (rs.filterMap P.mtrrdec).flatMap Range.line))
      else .error "mtrr index out of range" := by
  induction rs generalizing i text with
  | nil =>
    have hNone : ([] : List Mtrreg).length ≤ Nmtrr - i := Nat.zero_le _
    rw [if_pos hNone, List.filterMap_nil, List.flatMap_nil, List.append_nil]
    rfl
  | cons r rs ih =>
    rw [Processor.printRegs, List.length_cons]
    by_cases hEnd : i ≥ Nmtrr
    · rw [if_pos hEnd, if_neg (by omega)]
    · have hIff : rs.length + 1 ≤ Nmtrr - i ↔ rs.length ≤ Nmtrr - (i + 1) := by omega
      rw [if_neg hEnd, mtrrdec_sanity, if_congr hIff rfl rfl]
      cases hDec : P.mtrrdec r with
      | none =>
        rw [List.filterMap_cons_none hDec]
        exact ih (by omega) text
      | some q =>
        rw [List.filterMap_cons_some hDec, List.flatMap_cons, ← List.append_assoc]
        show P.printRegs bufsize (i + 1) (snprint bufsize text ++ _) rs = _
        -- a buffer that is full takes nothing more
        have hMore : snprint bufsize text ++ snprint (bufsize - (snprint bufsize text).length) q.line =
            snprint bufsize (text ++ q.line) := by
          unfold snprint
          rw [List.take_append, List.length_take]
          congr 2
          omega
        rw [hMore]
        exact ih (by omega) (text ++ q.line)

/-- The registers print what the table prints. -/
theorem Mtrrs.Holds.print (h : s.Holds t) (bufsize : Nat) :
    P.mtrrprint s bufsize = P.tablePrint t bufsize := by
  obtain ⟨n, hRegs⟩ := h.regs
  have hRanges : s.regs.filterMap P.mtrrdec = t.ranges := by
    have hMap : (s.regs.map P.mtrrdec).filterMap id = t.ranges := by
      rw [hRegs, List.filterMap_append, List.filterMap_map, List.filterMap_replicate_of_none rfl,
        List.append_nil]
      exact List.filterMap_some
    rw [List.filterMap_map] at hMap
    exact hMap
  unfold Processor.mtrrprint Processor.tablePrint
  rw [printRegs_eq (Nat.zero_le _), hRanges, Nat.sub_zero, s.vcnt]

end

/-! ## Runs -/

section

variable {s s' : Mtrrs P} {t : MtrrTable}

/-- A call does to the registers what it does to the table, and gets the same answer. -/
theorem step_holds (h : s.Holds t) (e : MtrrEvent) :
    s.step e = none ∧ MtrrTable.step P t e = none ∨
    ∃ s' t', s.step e = some s' ∧ MtrrTable.step P t e = some t' ∧ s'.Holds t' := by
  obtain ⟨hAnswer, hNext⟩ := mtrr_step h e.1
  unfold Mtrrs.step MtrrTable.step
  rw [hAnswer]
  by_cases hSame : (P.tableMtrr t e.1).1 = e.2
  · rw [if_pos hSame, if_pos hSame]
    exact Or.inr ⟨_, _, rfl, rfl, hNext⟩
  · rw [if_neg hSame, if_neg hSame]
    exact Or.inl ⟨rfl, rfl⟩

/-- **The registers refine the table.** From registers that hold the ranges of the table, with
nothing behind them and the lock in the same state, the calls get the same answers as from the
table, and the registers print what is in the table. -/
theorem mtrr_table (h : s.Holds t) (es : List MtrrEvent) :
    Trace.run Mtrrs.step s es = none ∧ Trace.run (MtrrTable.step P) t es = none ∨
    ∃ s' t', Trace.run Mtrrs.step s es = some s' ∧ Trace.run (MtrrTable.step P) t es = some t' ∧
      s'.Holds t' ∧ ∀ bufsize, P.mtrrprint s' bufsize = P.tablePrint t' bufsize := by
  rcases Trace.run_bisimulates (R := Mtrrs.Holds (P := P)) (fun _ _ e hs _ => step_holds hs e) h
    Trace.always_true with hNone | ⟨s', t', hs, ht, hEnd⟩
  · exact Or.inl hNone
  · exact Or.inr ⟨s', t', hs, ht, hEnd, hEnd.print⟩

end

/-! ## The types of the addresses -/

def Range.key (q : Range) : Uvlong × Uvlong := (q.base, q.size)

namespace Processor

variable (P : Processor)

/-- The range that a request is for, if it passes the checks. -/
def range (c : MtrrCall) : Option Range :=
  match P.mtrrcheck c with
  | .error _ => none
  | .ok type => some { base := c.base, size := c.size, type := type }

/-- The answer of a call that finds the lock free and a place. -/
def answer (c : MtrrCall) : MtrrAnswer :=
  match P.mtrrcheck c with
  | .error msg => .error msg
  | .ok _ => .done

/-- The registers of a range. -/
def code (q : Range) : Mtrreg := sanity (P.mtrrenc q.base q.size q.type true)

/-- A range that the processor can address, from below 4GB. -/
structure Plain (q : Range) : Prop where
  sound : ∃ k, Sound q.base q.size q.type k
  below : q.base.toNat < 2 ^ 32
  fits  : q.base.toNat + q.size.toNat ≤ 2 ^ P.physbits

end Processor

/-- The registers hold the codes of the ranges. -/
structure Mtrrs.Encodes (s : Mtrrs P) (qs : List Range) : Prop where
  lock  : s.mtrrlk = false
  plain : ∀ q ∈ qs, P.Plain q
  regs  : ∃ rest, s.regs = qs.map P.code ++ rest ∧ ∀ r ∈ rest, P.mtrrdec r = none

section

variable {s s' : Mtrrs P} {qs : List Range} {q : Range} {c : MtrrCall}

/-- A request that passes is for its range. -/
theorem Processor.range_some (h : P.range c = some q) :
    ∃ type, P.mtrrcheck c = .ok type ∧ q = { base := c.base, size := c.size, type := type } := by
  unfold Processor.range at h
  cases hCheck : P.mtrrcheck c with
  | error msg =>
    rw [hCheck] at h
    cases h
  | ok type =>
    rw [hCheck] at h
    exact ⟨type, rfl, (Option.some.inj h).symm⟩

/-- A request that does not pass is for none. -/
theorem Processor.range_none (h : P.range c = none) : ∃ msg, P.mtrrcheck c = .error msg := by
  unfold Processor.range at h
  cases hCheck : P.mtrrcheck c with
  | error msg => exact ⟨msg, rfl⟩
  | ok type =>
    rw [hCheck] at h
    cases h

/-- A range below 4GB is decoded as it was encoded. -/
theorem Processor.Plain.dec (h : P.Plain q) : P.mtrrdec (P.code q) = some q := by
  obtain ⟨k, hSound⟩ := h.sound
  have hFits : q.size.toNat ≤ 2 ^ P.physbits := by
    have hAll := h.fits
    omega
  have hBase : q.base &&& low 64 36 = q.base := by
    have hLow := h.below
    refine BitVec.eq_of_toNat_eq ?_
    rw [toNat_and_low _ (by decide)]
    omega
  unfold Processor.code
  rw [hSound.dec]
  unfold Processor.stored
  rw [hBase, if_pos hFits]

/-- Registers that encode ranges hold them. -/
theorem Mtrrs.Encodes.holds (h : s.Encodes qs) : s.Holds ⟨qs, false⟩ := by
  obtain ⟨rest, hRegs, hRest⟩ := h.regs
  refine ⟨h.lock, rest.length, ?_⟩
  rw [hRegs, List.map_append, List.map_map, List.eq_replicate_of_mem (l := rest.map P.mtrrdec)
    (a := none) fun o ho => ?_, List.length_map]
  · congr 1
    exact List.map_congr_left fun q hq => (h.plain q hq).dec
  · obtain ⟨r, hr, rfl⟩ := List.mem_map.mp ho
    exact hRest r hr

/-- In a table of ranges from below 4GB only the entry of the range itself is taken. -/
theorem taken_plain (hPlain : ∀ q ∈ qs, P.Plain q) (q : Range) :
    (qs.findIdx? fun d => d.taken q.base q.size) = qs.findIdx? fun d => d.key = q.key := by
  induction qs with
  | nil => rfl
  | cons d qs ih =>
    obtain ⟨hFirst, hRest⟩ := List.forall_mem_cons.mp hPlain
    have hLow : ¬ d.base ≥ 1 <<< 32 := by
      have hFour : (1 <<< 32 : Uvlong).toNat = 2 ^ 32 := by decide
      rw [ge_iff_le, BitVec.le_def, hFour]
      exact Nat.not_le.mpr hFirst.below
    have hSame : d.taken q.base q.size = decide (d.key = q.key) :=
      decide_eq_decide.mpr ((or_iff_left hLow).trans Prod.mk_inj.symm)
    rw [List.findIdx?_cons, List.findIdx?_cons, ih hRest, hSame]

/-- The code of a range goes to the place of its key, or to the first free register. -/
theorem set_code {rest : List Mtrreg} (hRest : ∀ r ∈ rest, P.mtrrdec r = none) (q : Range) {i : Nat}
    (hPlace : (qs.findIdx? fun d => d.key = q.key) = some i ∨
      (qs.findIdx? fun d => d.key = q.key) = none ∧ i = qs.length ∧ 0 < rest.length) :
    ∃ rest', (qs.map P.code ++ rest).set i (P.code q) = (assign Range.key q qs).map P.code ++ rest' ∧
      ∀ r ∈ rest', P.mtrrdec r = none := by
  unfold assign
  rcases hPlace with hOld | ⟨hNew, rfl, hRoom⟩
  · obtain ⟨hLt, -⟩ := List.findIdx?_eq_some_iff_getElem.mp hOld
    refine ⟨rest, ?_, hRest⟩
    rw [hOld, List.set_append_left _ _ (by rw [List.length_map]; exact hLt), ← List.map_set]
  · obtain ⟨r, rest, rfl⟩ := List.exists_cons_of_length_pos hRoom
    refine ⟨rest, ?_, fun r' hr' => hRest r' (List.mem_cons_of_mem _ hr')⟩
    rw [hNew, List.set_append_right _ _ (by rw [List.length_map]), List.length_map, Nat.sub_self,
      List.set_cons_zero, List.map_append, List.append_assoc]
    rfl

/-- The place of a range in such a table. -/
theorem place_plain (hPlain : ∀ q ∈ qs, P.Plain q) (hRoom : (assign Range.key q qs).length ≤ P.slots) :
    ∃ i, P.place qs q.base q.size = some i ∧ ((qs.findIdx? fun d => d.key = q.key) = some i ∨
      (qs.findIdx? fun d => d.key = q.key) = none ∧ i = qs.length ∧ qs.length < P.slots) := by
  have hSlots : P.slots ≤ Nmtrr := Nat.min_le_right _ _
  rw [length_assign] at hRoom
  unfold Processor.place
  cases hFind : qs.findIdx? fun d => d.key = q.key with
  | some i =>
    rw [hFind, if_pos (Option.isSome_some)] at hRoom
    refine ⟨i, ?_, Or.inl rfl⟩
    rw [List.take_of_length_le (by omega), taken_plain hPlain, hFind]
  | none =>
    rw [hFind, if_neg (by rw [Option.isSome_none]; exact Bool.false_ne_true)] at hRoom
    refine ⟨qs.length, ?_, Or.inr ⟨rfl, rfl, by omega⟩⟩
    rw [List.take_of_length_le (by omega), taken_plain hPlain, hFind]
    exact if_pos (by omega)

/-- A call for such a range writes its code to the place of the range. -/
theorem mtrr_encodes (h : s.Encodes qs) (hRange : P.range c = some q) (hPlain : P.Plain q)
    (hRoom : (assign Range.key q qs).length ≤ P.slots) :
    ∃ s', s.step (c, P.answer c) = some s' ∧ s'.Encodes (assign Range.key q qs) := by
  obtain ⟨i, hPlace, hWhere⟩ := place_plain h.plain hRoom
  obtain ⟨rest, hRegs, hRest⟩ := h.regs
  have hCount : P.vcnt = qs.length + rest.length := by
    rw [← s.vcnt, hRegs, List.length_append, List.length_map]
  have hSlots : P.slots ≤ P.vcnt := Nat.min_le_left _ _
  -- the new range is in the place of an old one, or at the end
  have hNew : ∀ d ∈ assign Range.key q qs, P.Plain d := by
    intro d hd
    rcases mem_assign hd with hOld | rfl
    · exact h.plain d hOld
    · exact hPlain
  obtain ⟨type, hCheck, rfl⟩ := Processor.range_some hRange
  have hFree : ¬ s.mtrrlk = true := by
    rw [h.lock]
    exact Bool.false_ne_true
  have hMtrr : P.mtrr s c = (.done, { s with
      regs := s.regs.set i (P.code { base := c.base, size := c.size, type := type })
      vcnt := by rw [List.length_set, s.vcnt] }) := by
    unfold Processor.mtrr
    rw [hCheck]
    dsimp only
    rw [if_neg hFree, h.holds.slot, hPlace]
    rfl
  have hAnswer : P.answer c = .done := by
    unfold Processor.answer
    rw [hCheck]
  unfold Mtrrs.step
  rw [hMtrr, hAnswer]
  refine ⟨_, if_pos rfl, h.lock, hNew, ?_⟩
  show ∃ rest', s.regs.set i _ = _ ∧ _
  rw [hRegs]
  exact set_code hRest _ (hWhere.imp id fun hEnd => ⟨hEnd.1, hEnd.2.1, by omega⟩)

/-- Calls for such ranges do what assignments do. -/
theorem run_encodes {done : List Range} (cs : List MtrrCall) (h : s.Encodes (latest Range.key done))
    (hPlain : ∀ q ∈ cs.filterMap P.range, P.Plain q)
    (hFew : (latest Range.key (done ++ cs.filterMap P.range)).length ≤ P.slots) :
    ∃ s', Trace.run Mtrrs.step s (cs.map fun c => (c, P.answer c)) = some s' ∧
      s'.Encodes (latest Range.key (done ++ cs.filterMap P.range)) := by
  induction cs generalizing s done with
  | nil =>
    rw [List.filterMap_nil, List.append_nil]
    exact ⟨s, rfl, h⟩
  | cons c cs ih =>
    rw [List.map_cons, Trace.run]
    cases hRange : P.range c with
    | none =>
      -- the checks fail, and nothing changes
      rw [List.filterMap_cons_none hRange] at hPlain hFew ⊢
      have hStep : s.step (c, P.answer c) = some s := by
        obtain ⟨msg, hCheck⟩ := Processor.range_none hRange
        unfold Mtrrs.step Processor.answer Processor.mtrr
        rw [hCheck]
        exact if_pos rfl
      rw [hStep]
      exact ih h hPlain hFew
    | some q =>
      rw [List.filterMap_cons_some hRange, ← List.singleton_append, ← List.append_assoc] at hFew ⊢
      rw [List.filterMap_cons_some hRange] at hPlain
      obtain ⟨hFirst, hRest⟩ := List.forall_mem_cons.mp hPlain
      have hRoom : (assign Range.key q (latest Range.key done)).length ≤ P.slots := by
        rw [← latest_concat]
        exact Nat.le_trans length_latest_le hFew
      obtain ⟨s', hStep, hNext⟩ := mtrr_encodes h hRange hFirst hRoom
      rw [← latest_concat] at hNext
      rw [hStep]
      exact ih hNext hRest hFew

/-- What covers an address holds a range. -/
theorem dec_of_covers {r : Mtrreg} {a : Uvlong} (h : r.Covers a) : P.mtrrdec r ≠ none := by
  unfold Processor.mtrrdec
  have hBit : (sanity r).mask.getLsbD 11 = true := by
    unfold sanity
    rw [BitVec.getLsbD_and, h.1, Paerange_sub_one, getLsbD_low]
    rfl
  rw [if_neg]
  · exact nofun
  · intro hZero
    have hValid := congrArg (fun v => v.getLsbD 0) hZero
    have hOne : (1 : Uvlong).getLsbD 0 = true := by decide
    simp only [BitVec.getLsbD_and, BitVec.getLsbD_ushiftRight, hOne, Bool.and_true, Nat.add_zero,
      hBit] at hValid
    exact absurd hValid (by decide)

/-- The codes of ranges, as the processor takes them. -/
theorem Processor.Plain.covers (h : P.Plain q) {a : Uvlong} (ha : a.toNat < 2 ^ P.physbits) :
    (P.code q).Covers a ↔ q.base.toNat ≤ a.toNat ∧ a.toNat < q.base.toNat + q.size.toNat := by
  obtain ⟨k, hSound⟩ := h.sound
  have hFits := h.fits
  have hSize : q.size.toNat = 2 ^ k := by
    rw [hSound.size, BitVec.toNat_twoPow_of_lt hSound.width]
  have hPos := Nat.two_pow_pos k
  rw [hSize] at hFits ⊢
  unfold Processor.code
  rw [sanity_enc, hSound.size]
  have hSmall : 2 ^ k ≤ 2 ^ P.physbits := by omega
  exact covers_enc hSound.width hSound.page ((Nat.pow_le_pow_iff_right (by decide)).mp hSmall)
    hSound.aligned (by omega) ha

/-- The type that the processor finds is the one of the range. -/
theorem Processor.Plain.memtype (h : P.Plain q) : (P.code q).memtype = q.type := by
  obtain ⟨k, hSound⟩ := h.sound
  unfold Processor.code Mtrreg.memtype
  rw [sanity_enc]
  exact dec_type hSound.base hSound.type

/-- **The type last asked for.** From registers of which none is in use, with the lock free: after
calls for ranges below 4GB, no more of them than there are registers, all of which get what their
checks say, the types that the processor finds for an address are those that were last given to the
ranges that have the address. -/
theorem mtrr_effective {cs : List MtrrCall} (hLock : s.mtrrlk = false)
    (hClear : ∀ r ∈ s.regs, P.mtrrdec r = none) (hPlain : ∀ q ∈ cs.filterMap P.range,
      q.base.toNat < 2 ^ 32 ∧ q.base.toNat + q.size.toNat ≤ 2 ^ P.physbits)
    (hFew : ((cs.filterMap P.range).map Range.key).dedup.length ≤ P.slots) :
    ∃ s', Trace.run Mtrrs.step s (cs.map fun c => (c, P.answer c)) = some s' ∧
      ∀ a : Uvlong, a.toNat < 2 ^ P.physbits → ∀ type,
        (∃ r ∈ s'.regs, r.Covers a ∧ r.memtype = type) ↔
        ∃ q, (cs.filterMap P.range).reverse.find? (fun d => d.key = q.key) = some q ∧
          q.type = type ∧ q.base.toNat ≤ a.toNat ∧ a.toNat < q.base.toNat + q.size.toNat := by
  have hAll : ∀ q ∈ cs.filterMap P.range, P.Plain q := by
    intro q hq
    obtain ⟨hLow, hFits⟩ := hPlain q hq
    refine ⟨?_, hLow, hFits⟩
    obtain ⟨c, -, hRange⟩ := List.mem_filterMap.mp hq
    obtain ⟨type, hCheck, rfl⟩ := Processor.range_some hRange
    exact check_sound hCheck
  -- with all registers clear they encode the empty table
  have hStart : s.Encodes (latest Range.key []) := ⟨hLock, nofun, s.regs, rfl, hClear⟩
  rw [← length_latest] at hFew
  obtain ⟨s', hRun, hEnd⟩ := run_encodes cs hStart hAll hFew
  refine ⟨s', hRun, fun a ha type => ?_⟩
  obtain ⟨rest, hRegs, hRest⟩ := hEnd.regs
  rw [hRegs, List.nil_append]
  constructor
  · rintro ⟨r, hr, hCovers, rfl⟩
    -- a register that covers an address is of the table: the rest is clear
    rcases List.mem_append.mp hr with hCode | hFree
    · obtain ⟨q, hq, rfl⟩ := List.mem_map.mp hCode
      have hq' := hEnd.plain q hq
      exact ⟨q, mem_latest.mp hq, hq'.memtype.symm, (hq'.covers ha).mp hCovers⟩
    · exact absurd (hRest r hFree) (dec_of_covers hCovers)
  · rintro ⟨q, hLast, rfl, hIn⟩
    have hq : q ∈ latest Range.key ([] ++ cs.filterMap P.range) := mem_latest.mpr hLast
    have hq' := hEnd.plain q hq
    exact ⟨P.code q, List.mem_append_left _ (List.mem_map_of_mem hq), (hq'.covers ha).mpr hIn, hq'.memtype⟩

end

/-! ## Three calls -/

/-- It has two pairs of registers, and addresses of 36 bits. -/
def twoPairs : Processor where
  mtrrs := true
  cpuid f := if f = Exthighfunc then Extaddrsz else 36
  cap := 2
  deft := 0

def twoCleared : Mtrrs twoPairs where
  regs := [⟨0, 0⟩, ⟨0, 0⟩]
  mtrrlk := false
  vcnt := by decide

/-- The second gives another type to the range of the first. -/
def threeCalls : List MtrrCall :=
  [⟨0, 0x40000000, ascii "wb", by decide⟩, ⟨0, 0x40000000, ascii "wt", by decide⟩,
    ⟨0xC0000000, 0x1000, ascii "uc", by decide⟩]

/-- Three calls, the third of which changes the type of the first range. -/
theorem mtrr_table_two : ∃ s' t',
    Trace.run Mtrrs.step twoCleared (threeCalls.map fun c => (c, .done)) = some s' ∧
    Trace.run (MtrrTable.step twoPairs) ⟨[], false⟩ (threeCalls.map fun c => (c, .done)) = some t' ∧
    s'.Holds t' ∧ ∀ bufsize, twoPairs.mtrrprint s' bufsize = twoPairs.tablePrint t' bufsize := by
  have hHolds : twoCleared.Holds ⟨[], false⟩ := ⟨rfl, 2, by decide⟩
  refine (mtrr_table hHolds (threeCalls.map fun c => (c, .done))).resolve_left fun hNone => ?_
  have hRun : (Trace.run (MtrrTable.step twoPairs) ⟨[], false⟩
      (threeCalls.map fun c => (c, .done))).isSome = true := by
    decide
  rw [hNone.2] at hRun
  cases hRun

/-- The same calls, and what the processor makes of them. -/
theorem mtrr_effective_two :
    ∃ s', Trace.run Mtrrs.step twoCleared (threeCalls.map fun c => (c, twoPairs.answer c)) = some s' ∧
      ∀ a : Uvlong, a.toNat < 2 ^ twoPairs.physbits → ∀ type,
        (∃ r ∈ s'.regs, r.Covers a ∧ r.memtype = type) ↔
        ∃ q, (threeCalls.filterMap twoPairs.range).reverse.find? (fun d => d.key = q.key) = some q ∧
          q.type = type ∧ q.base.toNat ≤ a.toNat ∧ a.toNat < q.base.toNat + q.size.toNat :=
  mtrr_effective rfl (by decide) (by decide) (by decide)

end Glendum
