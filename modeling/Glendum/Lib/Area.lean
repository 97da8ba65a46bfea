import Glendum.Lib.Memory

/-!
# Areas of memory

An area is the `n` addresses from `a` on. A routine that builds something in memory is
described by the area outside of which it changes nothing, and what others keep in memory by
the areas that have to stay the same.

* `SameOff.mono`, `SameOff.trans` — several writes, seen from an area around them;
* `SameOff.sameOn` — what lies apart from the area stays;
* `SameOn.load32` — and is read back as before.
-/

namespace Machine.Memory

variable {m m' m'' : Memory} {a b x : Word} {n k : Nat}

/-- The memories are the same at every address outside of the area. -/
def SameOff (a : Word) (n : Nat) (m m' : Memory) : Prop :=
  ∀ x : Word, n ≤ (x - a).toNat → m' x = m x

/-- The memories are the same in the area. -/
def SameOn (a : Word) (n : Nat) (m m' : Memory) : Prop :=
  ∀ x : Word, (x - a).toNat < n → m' x = m x

/-! ## Outside of an area -/

/-- Nothing has changed outside an area, or in one. -/
theorem SameOff.refl (a : Word) (n : Nat) (m : Memory) : SameOff a n m m := fun _ _ => rfl

/-- Two changes of the same area. -/
theorem SameOff.trans (h : SameOff a n m m') (h' : SameOff a n m' m'') : SameOff a n m m'' := by
  intro x hOut
  rw [h' x hOut, h x hOut]

/-- An area around the first one. -/
theorem SameOff.mono (h : SameOff a n m m') (hIn : (a - b).toNat + n ≤ k) : SameOff b k m m' := by
  intro x hOut
  apply h
  bv_omega

/-- A write changes its own bytes only. -/
theorem sameOff_write {bs : List Byte} : SameOff a bs.length m (write m a bs) :=
  fun _ hOut => write_apart hOut

/-- A store changes four bytes. -/
theorem sameOff_store32 {v : Word} : SameOff a 4 m (store32 m a v) :=
  fun _ hOut => write_apart hOut

/-! ## In an area -/

theorem SameOn.refl (a : Word) (n : Nat) (m : Memory) : SameOn a n m m := fun _ _ => rfl

theorem SameOn.trans (h : SameOn a n m m') (h' : SameOn a n m' m'') : SameOn a n m m'' := by
  intro x hIn
  rw [h' x hIn, h x hIn]

/-- A part of an area that has not changed. -/
theorem SameOn.mono (h : SameOn a n m m') (hIn : (b - a).toNat + k ≤ n) : SameOn b k m m' := by
  intro x hx
  apply h
  bv_omega

/-- An area apart from the one that has changed. -/
theorem SameOff.sameOn (h : SameOff a n m m') (hApart : n ≤ (b - a).toNat)
    (hFit : (b - a).toNat + k ≤ 2 ^ 32) : SameOn b k m m' := by
  intro x hIn
  apply h
  bv_omega

/-- A word of an area that has not changed. -/
theorem SameOn.load32 (h : SameOn a n m m') (hIn : (x - a).toNat + 4 ≤ n) (hFit : n ≤ 2 ^ 32) :
    load32 m' x = load32 m x := by
  have hByte : ∀ y : Word, y = x ∨ y = x + 1 ∨ y = x + 2 ∨ y = x + 3 → m' y = m y := by
    intro y hy
    apply h
    rcases hy with rfl | rfl | rfl | rfl <;> bv_omega
  rw [Memory.load32, hByte x (by simp), hByte (x + 1) (by simp), hByte (x + 2) (by simp),
    hByte (x + 3) (by simp), Memory.load32]

end Machine.Memory
