import Glendum.Lib.Memory
import Mathlib.Data.List.GetD

/-!
# Byte order

A number of `n` bytes as a little-endian machine has it in memory, and the two ways to copy
its bytes through a table of places.

* `ofLeBytes_leBytes`, `leBytes_ofLeBytes` — a number and its bytes;
* `gather_reverse`, `scatter_reverse` — a table that counts down turns the bytes around.
-/

namespace Machine

/-- The bytes of a number, least significant first. -/
def leBytes : Nat → Nat → List Byte
  | 0, _ => []
  | n + 1, v => BitVec.ofNat 8 v :: leBytes n (v / 256)

def ofLeBytes : List Byte → Nat
  | [] => 0
  | b :: bs => b.toNat + 256 * ofLeBytes bs

/-- Most significant first. -/
def beBytes (n v : Nat) : List Byte := (leBytes n v).reverse

/-- `t[i] = f[o[i]]`, for the places `o` of a table. -/
def gather (o : List Nat) (f : List Byte) : List Byte := o.map fun k => f.getD k 0

/-- `t[o[i]] = f[i]`. -/
def scatter (o : List Nat) (f t : List Byte) : List Byte :=
  (o.zip f).foldl (fun t (k, b) => t.set k b) t

section

variable {n v : Nat} {bs : List Byte}

@[simp] theorem length_leBytes (n v : Nat) : (leBytes n v).length = n := by
  induction n generalizing v with
  | zero => rfl
  | succ n ih => rw [leBytes, List.length_cons, ih]

@[simp] theorem length_beBytes (n v : Nat) : (beBytes n v).length = n := by
  rw [beBytes, List.length_reverse, length_leBytes]

/-- The value of the bytes is below the power for their number. -/
theorem ofLeBytes_lt (bs : List Byte) : ofLeBytes bs < 256 ^ bs.length := by
  induction bs with
  | nil => exact Nat.one_pos
  | cons b bs ih =>
    have hByte : b.toNat < 256 := b.isLt
    rw [ofLeBytes, List.length_cons, Nat.pow_succ]
    omega

/-- A number that fits is read as it was written. -/
theorem ofLeBytes_leBytes (h : v < 256 ^ n) : ofLeBytes (leBytes n v) = v := by
  induction n generalizing v with
  | zero =>
    have hZero : v = 0 := Nat.lt_one_iff.mp h
    rw [hZero]
    rfl
  | succ n ih =>
    have hRest : v / 256 < 256 ^ n := Nat.div_lt_of_lt_mul (by rwa [Nat.pow_succ'] at h)
    have hLow : (BitVec.ofNat 8 v).toNat = v % 256 := BitVec.toNat_ofNat v 8
    rw [leBytes, ofLeBytes, ih hRest, hLow]
    exact Nat.mod_add_div v 256

/-- Bytes are written as they were read. -/
theorem leBytes_ofLeBytes (bs : List Byte) : leBytes bs.length (ofLeBytes bs) = bs := by
  induction bs with
  | nil => rfl
  | cons b bs ih =>
    have hByte : b.toNat < 256 := b.isLt
    have hLow : BitVec.ofNat 8 (b.toNat + 256 * ofLeBytes bs) = b := by
      apply BitVec.eq_of_toNat_eq
      rw [BitVec.toNat_ofNat]
      omega
    have hHigh : (b.toNat + 256 * ofLeBytes bs) / 256 = ofLeBytes bs := by omega
    rw [List.length_cons, ofLeBytes, leBytes, hLow, hHigh, ih]

/-! ## Tables that count down -/

theorem map_getD_range (bs : List Byte) : (List.range bs.length).map (fun k => bs.getD k 0) = bs := by
  refine List.ext_getElem (by rw [List.length_map, List.length_range]) fun i _ hi => ?_
  rw [List.getElem_map, List.getElem_range, List.getD_eq_getElem _ _ hi]

/-- The places in reverse order give the bytes in reverse order. -/
theorem gather_reverse (bs : List Byte) : gather (List.range bs.length).reverse bs = bs.reverse := by
  unfold gather
  rw [List.map_reverse, map_getD_range]

/-- The loop fills `t` from the last of the places on. -/
theorem scatter_countdown {f t : List Byte} (hFits : f.length ≤ t.length) :
    scatter (List.range f.length).reverse f t = f.reverse ++ t.drop f.length := by
  induction f generalizing t with
  | nil => rfl
  | cons b f ih =>
    rw [List.length_cons] at hFits
    have hSet : f.length ≤ (t.set f.length b).length := by
      rw [List.length_set]
      omega
    -- the first byte goes to the last of the places that are filled
    have hDrop : (t.set f.length b).drop f.length = b :: t.drop (f.length + 1) := by
      rw [List.drop_set, if_neg (Nat.lt_irrefl _), Nat.sub_self, List.drop_eq_getElem_cons hFits, List.set_cons_zero]
    have hStep : scatter (List.range (f.length + 1)).reverse (b :: f) t =
        scatter (List.range f.length).reverse f (t.set f.length b) := by
      unfold scatter
      rw [List.range_succ, List.reverse_append]
      rfl
    rw [List.length_cons, hStep, ih hSet, hDrop, List.reverse_cons, List.append_assoc, List.singleton_append]

/-- And put them so. -/
theorem scatter_reverse {f t : List Byte} (hSize : t.length = f.length) :
    scatter (List.range f.length).reverse f t = f.reverse := by
  rw [scatter_countdown (Nat.le_of_eq hSize.symm), ← hSize, List.drop_length, List.append_nil]

end

end Machine
