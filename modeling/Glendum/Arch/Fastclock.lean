import Mathlib.Tactic.Common

/-!
# Glendum — the fast clock

`fastticks` gives the value of a clock and stores its rate in `*hz`; clients divide one by
the other. The generic architecture takes both from the host: `timeres` scales the time of
day to nanoseconds, but the rate that it announces is 50.

* `fastticks_nanos` — the value is the time in nanoseconds, it does not wrap before 2500;
* `fastclock_rate_iff` — so the announced rate is met between no two different times.
-/

namespace Glendum

abbrev Uvlong := BitVec 64

/-- What `gettimeofday` returns. The clock of the host is never set to a time before 1970. -/
@[ext] structure Timeval where
  tv_sec   : Nat
  tv_usec  : Nat
  usec_lt  : tv_usec < 1000000

def Timeval.micros (t : Timeval) : Nat := t.tv_sec * 1000000 + t.tv_usec

/-- The start of the year 2500. -/
def year2500 : Nat := 16725225600

/-! ## The clock -/

/-- What `*phz` holds afterwards, `none` where `phz` is `NULL`, and `*pres`. The host exits
if there is no time of day. -/
def timeres (tod : Option Timeval) (phz : Option Uvlong) : Option (Option Uvlong × Uvlong) :=
  tod.map fun ts =>
    let hosttm := BitVec.ofNat 64 ts.tv_sec * 1000000000 + BitVec.ofNat 64 ts.tv_usec * 1000
    (phz.map fun _ => 50, hosttm)

def umfastclock (tod : Option Timeval) (phz : Option Uvlong) : Option (Option Uvlong × Uvlong) :=
  timeres tod phz

/-- `arch` is `archgeneric`, its `fastclock` is `umfastclock`. -/
def fastticks (tod : Option Timeval) (hz : Option Uvlong) : Option (Option Uvlong × Uvlong) :=
  umfastclock tod hz

/-- The clock counts `hz` ticks a second from `t₁` to `t₂`. One tick may be missing since
ticks are whole, and what would be counted in a microsecond since the host shows no less. -/
def CountsAtRate (t₁ t₂ : Timeval) : Prop :=
  ∀ old₁ old₂ : Uvlong, ∃ hz v₁ v₂ : Uvlong,
    fastticks (some t₁) (some old₁) = some (some hz, v₁) ∧
    fastticks (some t₂) (some old₂) = some (some hz, v₂) ∧
    (((v₂.toNat : Int) - v₁.toNat) * 1000000 - ((t₂.micros : Int) - t₁.micros) * hz.toNat).natAbs ≤
      1000000 + hz.toNat

/-! ## Ticks -/

section

variable {t t₁ t₂ : Timeval}

theorem Timeval.eq_of_micros (h : t₁.micros = t₂.micros) : t₁ = t₂ := by
  have h₁ := t₁.usec_lt
  have h₂ := t₂.usec_lt
  unfold Timeval.micros at h
  ext
  · omega
  · omega

theorem timeres_toNat (h : t.tv_sec < year2500) :
    (BitVec.ofNat 64 t.tv_sec * 1000000000 + BitVec.ofNat 64 t.tv_usec * 1000 : Uvlong).toNat =
      t.micros * 1000 := by
  have hSec : t.tv_sec < 16725225600 := h
  have hUsec := t.usec_lt
  unfold Timeval.micros
  -- the seconds leave room for about 50 years more
  bv_omega

/-- With or without a place for the rate. -/
theorem fastticks_nanos (h : t.tv_sec < year2500) (hz : Option Uvlong) :
    ∃ v, fastticks (some t) hz = some (hz.map fun _ => 50, v) ∧ v.toNat = t.micros * 1000 :=
  ⟨_, rfl, timeres_toNat h⟩

/-- Each microsecond is 1000 ticks, where 50 in a second are announced. -/
theorem ticks_apart {d : Nat} (h : ((d * 1000 : Int) * 1000000 - d * 50).natAbs ≤ 1000050) :
    d = 0 := by
  omega

end

/-! ## The rate -/

/-- Only a time and itself are as far apart as the clock says. -/
theorem fastclock_rate_iff (t₁ t₂ : Timeval) (h : t₁.micros ≤ t₂.micros)
    (hYear : t₂.tv_sec < year2500) : CountsAtRate t₁ t₂ ↔ t₁ = t₂ := by
  have hYear₁ : t₁.tv_sec < year2500 := by
    have h₂ := t₂.usec_lt
    unfold Timeval.micros at h
    omega
  obtain ⟨d, hd⟩ := Nat.exists_eq_add_of_le h
  constructor
  · intro hRate
    obtain ⟨hz, v₁, v₂, hAt₁, hAt₂, hDiff⟩ := hRate 0 0
    obtain ⟨w₁, hTicks₁, hNanos₁⟩ := fastticks_nanos hYear₁ (some 0)
    obtain ⟨w₂, hTicks₂, hNanos₂⟩ := fastticks_nanos hYear (some 0)
    -- the rate can only be 50, and the values only nanoseconds
    rw [hTicks₁] at hAt₁
    rw [hTicks₂] at hAt₂
    simp only [Option.map_some, Option.some.injEq, Prod.mk.injEq] at hAt₁ hAt₂
    obtain ⟨rfl, rfl⟩ := hAt₁
    obtain ⟨-, rfl⟩ := hAt₂
    rw [hNanos₁, hNanos₂, hd, show (50 : Uvlong).toNat = 50 from rfl] at hDiff
    apply Timeval.eq_of_micros
    have hSame : d = 0 := ticks_apart (by omega)
    omega
  · rintro rfl old₁ old₂
    obtain ⟨v, hTicks, -⟩ := fastticks_nanos hYear (some old₁)
    refine ⟨50, v, v, hTicks, hTicks, ?_⟩
    simp

/-- At the first second of the year 2025, against itself. -/
theorem fastclock_rate_now :
    CountsAtRate ⟨1735689600, 0, by decide⟩ ⟨1735689600, 0, by decide⟩ :=
  (fastclock_rate_iff _ _ (Nat.le_refl _) (by decide)).mpr rfl

/-- In one second the clock counts 1000000000 ticks instead of 50. -/
theorem second_miscounted :
    fastticks (some ⟨0, 0, by decide⟩) (some 0) = some (some 50, 0) ∧
      fastticks (some ⟨1, 0, by decide⟩) (some 0) = some (some 50, 1000000000) ∧
      ¬ CountsAtRate ⟨0, 0, by decide⟩ ⟨1, 0, by decide⟩ := by
  refine ⟨by decide, by decide, fun h => ?_⟩
  obtain ⟨hz, v₁, v₂, hAt₁, hAt₂, hDiff⟩ := h 0 0
  have hRate : (50 : Uvlong) = hz := Option.some.inj (congrArg Prod.fst (Option.some.inj hAt₁))
  have hTicks₁ : (0 : Uvlong) = v₁ := congrArg Prod.snd (Option.some.inj hAt₁)
  have hTicks₂ : (1000000000 : Uvlong) = v₂ := congrArg Prod.snd (Option.some.inj hAt₂)
  subst hRate hTicks₁ hTicks₂
  exact absurd hDiff (by decide)

end Glendum
