import Glendum.Arch.Mach

/-!
# Glendum — busy delays

`delay` and `microdelay` turn a time into a number of rounds of `aamloop`. The factor is
`m->loopconst`, which `machinit` sets to 100000; `guesscpuhz`, which would measure it, is
not called in this port. The product is formed in an `int`, and one that comes out as 0 or
below is replaced by a single round.

* `delay_exact_iff` / `microdelay_exact_iff` — the number of rounds is the product exactly
  as long as the product fits an `int`;
* `delays_lawful_iff` — so `shutdown`, which asks for five minutes, gets one round.
-/

namespace Glendum

open Machine

/-- The rounds of `LOOP` for a count in `CX`, which is decremented before it is tested. -/
def aamloop (count : Word) : Nat :=
  if count - 1 = 0 then 1 else aamloop (count - 1) + 1
termination_by (count - 1).toNat
decreasing_by bv_omega

def delay (m : Mach) (millisecs : Word) : Nat :=
  let millisecs := millisecs * m.loopconst
  let millisecs := if millisecs.sle 0 then 1 else millisecs
  aamloop millisecs

def microdelay (m : Mach) (microsecs : Word) : Nat :=
  let microsecs := microsecs * m.loopconst
  let microsecs := microsecs.sdiv 1000
  let microsecs := if microsecs.sle 0 then 1 else microsecs
  aamloop microsecs

/-- The longest delay of `shutdown`, under the option `*debug`. -/
def shutdownDelay : Nat := 5 * 60 * 1000

/-- The record that `machinit` leaves in `*m`. -/
def Procs.calibrated (k : Procs) : Mach := (machinit k).mem (machinit k).m

/-- For a time `n` the product is exact, and so are both delays. -/
structure Mach.DelaysBy (m : Mach) (n : Nat) : Prop where
  product    : (BitVec.ofNat 32 n * m.loopconst).toInt = n * m.loopconst.toInt
  delay      : delay m (BitVec.ofNat 32 n) = max 1 (n * m.loopconst.toNat)
  microdelay : microdelay m (BitVec.ofNat 32 n) = max 1 (n * m.loopconst.toNat / 1000)

/-- Both times are waited for, the longer one at least as long. -/
structure Mach.LawfulDelays (m : Mach) (a b : Nat) : Prop where
  first           : m.DelaysBy a
  second          : m.DelaysBy b
  delay_mono      : Glendum.delay m (BitVec.ofNat 32 a) ≤ Glendum.delay m (BitVec.ofNat 32 b)
  microdelay_mono : Glendum.microdelay m (BitVec.ofNat 32 a) ≤
    Glendum.microdelay m (BitVec.ofNat 32 b)

/-! ## Rounds -/

theorem aamloop_eq {count : Word} (h : count ≠ 0) : aamloop count = count.toNat := by
  fun_induction aamloop count with
  | case1 count hLast =>
    have hOne : count = 1 := by bv_omega
    rw [hOne]
    rfl
  | case2 count hMore ih =>
    rw [ih hMore]
    bv_omega

section

variable {n : Word}

theorem aamloop_of_lt (h : n.toNat < 2 ^ 31) :
    aamloop (if n.sle 0 then 1 else n) = max 1 n.toNat := by
  have hInt : n.toInt = n.toNat := BitVec.toInt_eq_toNat_of_lt (by omega)
  by_cases hZero : n = 0
  · subst hZero
    exact aamloop_eq (by decide)
  · have hPos : 0 < n.toNat := by bv_omega
    have hSle : ¬ n.sle 0 := by
      rw [BitVec.sle_iff_toInt_le, hInt]
      show ¬ (n.toNat : Int) ≤ 0
      omega
    rw [if_neg hSle, aamloop_eq hZero]
    omega

/-- A count with the sign bit set is a negative `int`. -/
theorem aamloop_of_le (h : 2 ^ 31 ≤ n.toNat) : aamloop (if n.sle 0 then 1 else n) = 1 := by
  have hInt : n.toInt = n.toNat - 2 ^ 32 := by
    rw [BitVec.toInt_eq_toNat_cond, if_neg (by omega)]
    rfl
  have hSle : n.sle 0 := by
    rw [BitVec.sle_iff_toInt_le, hInt]
    show (n.toNat : Int) - 2 ^ 32 ≤ 0
    omega
  rw [if_pos hSle]
  exact aamloop_eq (by decide)

theorem sdiv_of_lt (h : n.toNat < 2 ^ 31) : (n.sdiv 1000).toNat = n.toNat / 1000 := by
  have hSign : n.msb = false := by
    rw [BitVec.msb_eq_decide]
    simpa using h
  rw [BitVec.sdiv_eq, hSign, show (1000 : Word).msb = false by decide]
  rfl

/-- The quotient of a negative `int` is 0 or negative. -/
theorem aamloop_sdiv_of_le (h : 2 ^ 31 ≤ n.toNat) :
    aamloop (if (n.sdiv 1000).sle 0 then 1 else n.sdiv 1000) = 1 := by
  have hSign : n.msb = true := by
    rw [BitVec.msb_eq_decide]
    simpa using h
  -- the quotient is the one of the absolute value, with the sign put back
  have hNeg : (-n).toNat ≤ 2 ^ 31 := by bv_omega
  have hQuot : n.sdiv 1000 = -((-n) / 1000) := by
    rw [BitVec.sdiv_eq, hSign, show (1000 : Word).msb = false by decide]
    rfl
  have hDiv : ((-n) / 1000).toNat = (-n).toNat / 1000 := BitVec.toNat_udiv
  rw [hQuot]
  by_cases hZero : (-n) / 1000 = 0
  · rw [hZero]
    exact aamloop_eq (by decide)
  · have hPos : 0 < ((-n) / 1000).toNat :=
      Nat.pos_of_ne_zero fun h => hZero (BitVec.eq_of_toNat_eq h)
    apply aamloop_of_le
    rw [BitVec.toNat_neg]
    omega

end

/-! ## Times -/

section

variable {m : Mach} {n : Nat}

/-- The product as a word, for a time that is a non-negative `int`. -/
theorem toNat_product (hn : n < 2 ^ 31) :
    (BitVec.ofNat 32 n * m.loopconst).toNat = n * m.loopconst.toNat % 2 ^ 32 := by
  rw [BitVec.toNat_mul, BitVec.toNat_ofNat, Nat.mod_eq_of_lt (Nat.lt_trans hn (by decide))]

theorem delay_exact_iff (hn : n < 2 ^ 31) :
    delay m (BitVec.ofNat 32 n) = max 1 (n * m.loopconst.toNat) ↔
      n * m.loopconst.toNat < 2 ^ 31 := by
  have hProd := toNat_product (m := m) hn
  rw [delay]
  -- a product of 2 ^ 31 or more is wrapped to a smaller one, or to a negative `int`
  rcases Nat.lt_or_ge (BitVec.ofNat 32 n * m.loopconst).toNat (2 ^ 31) with h | h
  · rw [aamloop_of_lt h]
    omega
  · rw [aamloop_of_le h]
    omega

theorem microdelay_of_lt (hn : n < 2 ^ 31) (h : n * m.loopconst.toNat < 2 ^ 31) :
    microdelay m (BitVec.ofNat 32 n) = max 1 (n * m.loopconst.toNat / 1000) := by
  have hProd := toNat_product (m := m) hn
  rw [Nat.mod_eq_of_lt (by omega)] at hProd
  have hDiv := sdiv_of_lt (hProd ▸ h)
  rw [microdelay, aamloop_of_lt (by omega), hDiv, hProd]

/-- Whatever the product wraps to, there are never more rounds than for the largest `int`. -/
theorem microdelay_le (m : Mach) (x : Word) : microdelay m x ≤ 2147483 := by
  rw [microdelay]
  rcases Nat.lt_or_ge (x * m.loopconst).toNat (2 ^ 31) with h | h
  · have hDiv := sdiv_of_lt h
    rw [aamloop_of_lt (by omega)]
    omega
  · rw [aamloop_sdiv_of_le h]
    decide

theorem loopconst_calibrated (k : Procs) : k.calibrated.loopconst = 100000 := by
  rw [Procs.calibrated, machinit]
  simp [Procs.set]

theorem microdelay_exact_iff {k : Procs} (hn : n < 2 ^ 31) :
    microdelay k.calibrated (BitVec.ofNat 32 n) =
        max 1 (n * k.calibrated.loopconst.toNat / 1000) ↔
      n * k.calibrated.loopconst.toNat < 2 ^ 31 := by
  refine ⟨fun hExact => ?_, microdelay_of_lt hn⟩
  have hMost := microdelay_le k.calibrated (BitVec.ofNat 32 n)
  rw [hExact, loopconst_calibrated] at hMost
  rw [loopconst_calibrated]
  -- the next multiple of 100000 behind the largest `int` already gives more rounds
  show n * 100000 < 2 ^ 31
  have hMost : max 1 (n * 100000 / 1000) ≤ 2147483 := hMost
  omega

theorem delaysBy_iff {k : Procs} (hn : n < 2 ^ 31) :
    k.calibrated.DelaysBy n ↔ n * k.calibrated.loopconst.toNat < 2 ^ 31 := by
  refine ⟨fun h => (delay_exact_iff hn).mp h.delay, fun h => ?_⟩
  refine ⟨?_, (delay_exact_iff hn).mpr h, (microdelay_exact_iff hn).mpr h⟩
  have hProd := toNat_product (m := k.calibrated) hn
  rw [Nat.mod_eq_of_lt (by omega)] at hProd
  have hInt : k.calibrated.loopconst.toInt = k.calibrated.loopconst.toNat := by
    rw [loopconst_calibrated]
    rfl
  rw [BitVec.toInt_eq_toNat_of_lt (by omega), hProd, hInt]
  exact Int.natCast_mul n _

end

/-! ## The law -/

/-- Delays are kept up to 21474 ms and µs, where the product still fits an `int`. -/
theorem delays_lawful_iff (k : Procs) (a b : Nat) (hab : a ≤ b) (hb : b ≤ shutdownDelay) :
    k.calibrated.LawfulDelays a b ↔ b * k.calibrated.loopconst.toNat < 2 ^ 31 := by
  have hLong : shutdownDelay = 300000 := rfl
  have hbInt : b < 2 ^ 31 := by omega
  have haInt : a < 2 ^ 31 := by omega
  refine ⟨fun h => (delaysBy_iff hbInt).mp h.second, fun h => ?_⟩
  -- the product of the shorter time fits as well
  have hle : a * k.calibrated.loopconst.toNat ≤ b * k.calibrated.loopconst.toNat :=
    Nat.mul_le_mul_right _ hab
  have hFirst := (delaysBy_iff (k := k) haInt).mpr (by omega)
  have hSecond := (delaysBy_iff (k := k) hbInt).mpr h
  refine ⟨hFirst, hSecond, ?_, ?_⟩
  · rw [hFirst.delay, hSecond.delay]
    omega
  · rw [hFirst.microdelay, hSecond.microdelay]
    have hDiv := Nat.div_le_div_right (c := 1000) hle
    omega

/-- A second is within the bound. -/
theorem delays_lawful_second : (um_main 0).calibrated.LawfulDelays 1 1000 := by
  apply (delays_lawful_iff (um_main 0) 1 1000 (by decide) (by decide)).mpr
  rw [loopconst_calibrated]
  decide

/-- The five minutes of `shutdown` pass in one round, a millisecond takes 100000. -/
theorem shutdown_delay_wraps :
    delay (um_main 0).calibrated (BitVec.ofNat 32 shutdownDelay) = 1 ∧
      delay (um_main 0).calibrated 1 = 100000 ∧
      ¬ (um_main 0).calibrated.LawfulDelays 1 shutdownDelay := by
  have hConst := loopconst_calibrated (um_main 0)
  have hLong : delay (um_main 0).calibrated (BitVec.ofNat 32 shutdownDelay) = 1 := by
    rw [delay, hConst]
    exact aamloop_of_le (by decide)
  have hShort : delay (um_main 0).calibrated 1 = 100000 := by
    rw [delay, hConst]
    exact aamloop_of_lt (by decide)
  refine ⟨hLong, hShort, fun h => ?_⟩
  have hMono := h.delay_mono
  rw [hLong] at hMono
  have hMono : delay (um_main 0).calibrated 1 ≤ 1 := hMono
  omega

end Glendum
