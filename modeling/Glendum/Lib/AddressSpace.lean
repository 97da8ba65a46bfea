import Glendum.Lib.Memory

/-!
# Address spaces backed by files

An address space maps page numbers to backings: a file, the offset of the page
in it, and access rights. `mmap` with a fixed address replaces whatever was
mapped in its range and `munmap` removes it; both refuse a range that is not
page-aligned or is empty, and then change nothing.

`mmap_page` and `munmap_page` are the one-page cases, in which the new address
space is a function update; `mapPages_of_mem` and `mapPages_of_not_mem` lift
them to a list of pages mapped one after the other. `fileByte` is the byte of a file
that stands at an address; `mmap_fileByte` says where a mapping puts them.
-/

namespace Machine

/-- Access rights of a mapping. -/
structure Prot where
  read  : Bool
  write : Bool
  exec  : Bool
deriving DecidableEq

/-- What backs one page. -/
structure Backing where
  fd   : Int
  off  : Nat
  prot : Prot
deriving DecidableEq

/-- Backings by page number. -/
abbrev AddressSpace := Nat → Option Backing

namespace AddressSpace

def pageSize : Nat := 4096

/-- Ranges the host accepts: page-aligned and not empty. -/
def RangeOk (va len : Nat) : Prop := va % pageSize = 0 ∧ 0 < len

instance (va len : Nat) : Decidable (RangeOk va len) := by
  unfold RangeOk
  infer_instance

/-- Page `n` lies in the range of `len` bytes at `va`. -/
def InRange (va len n : Nat) : Prop :=
  va / pageSize ≤ n ∧ n * pageSize < va + len

instance (va len n : Nat) : Decidable (InRange va len n) := by
  unfold InRange
  infer_instance

def munmap (as : AddressSpace) (va len : Nat) : AddressSpace := fun n =>
  if RangeOk va len ∧ InRange va len n then none else as n

/-- A shared file mapping at a fixed address. -/
def mmap (as : AddressSpace) (va len : Nat) (prot : Prot) (fd : Int) (off : Nat) :
    AddressSpace := fun n =>
  if (RangeOk va len ∧ off % pageSize = 0) ∧ InRange va len n then
    some ⟨fd, off + (n * pageSize - va), prot⟩
  else as n

/-! ## One page -/

theorem inRange_page {va n : Nat} (hVa : va % pageSize = 0) :
    InRange va pageSize n ↔ n = va / pageSize := by
  unfold InRange pageSize at *
  omega

theorem munmap_page {as : AddressSpace} {va : Nat} (hVa : va % pageSize = 0) :
    as.munmap va pageSize = Function.update as (va / pageSize) none := by
  have hOk : RangeOk va pageSize := ⟨hVa, by decide⟩
  funext n
  rw [munmap, Function.update_apply]
  simp only [hOk, inRange_page hVa, true_and]

theorem mmap_page (as : AddressSpace) {va off : Nat} (prot : Prot) (fd : Int)
    (hVa : va % pageSize = 0) (hOff : off % pageSize = 0) :
    as.mmap va pageSize prot fd off =
      Function.update as (va / pageSize) (some ⟨fd, off, prot⟩) := by
  have hOk : RangeOk va pageSize := ⟨hVa, by decide⟩
  funext n
  rw [mmap, Function.update_apply]
  simp only [hOk, hOff, inRange_page hVa, true_and]
  split
  · -- the mapped page is the first of its range
    next hn =>
    subst hn
    have hZero : va / pageSize * pageSize - va = 0 := by
      unfold pageSize at *
      omega
    rw [hZero, Nat.add_zero]
  · rfl

/-! ## Bytes -/

/-- The byte that stands at the address `a`: a file and an offset in it. -/
def fileByte (as : AddressSpace) (a : Nat) : Option (Int × Nat) :=
  (as (a / pageSize)).map fun b => (b.fd, b.off + a % pageSize)

theorem fileByte_congr {as as' : AddressSpace} {a : Nat}
    (h : as (a / pageSize) = as' (a / pageSize)) : as.fileByte a = as'.fileByte a := by
  unfold fileByte
  rw [h]

/-- A mapping shows the bytes of its file in their order. -/
theorem mmap_fileByte (as : AddressSpace) {va len off a : Nat} (prot : Prot) (fd : Int)
    (hOk : RangeOk va len) (hOff : off % pageSize = 0) (hLow : va ≤ a) (hHigh : a < va + len) :
    (as.mmap va len prot fd off).fileByte a = some (fd, off + (a - va)) := by
  have hRange : InRange va len (a / pageSize) :=
    ⟨Nat.div_le_div_right hLow, Nat.lt_of_le_of_lt (Nat.div_mul_le_self a pageSize) hHigh⟩
  -- the offset of the page and the offset in the page
  have hSum : off + (a / pageSize * pageSize - va) + a % pageSize = off + (a - va) := by
    have hVa := hOk.1
    unfold pageSize at *
    omega
  rw [fileByte, mmap, if_pos ⟨⟨hOk, hOff⟩, hRange⟩, Option.map_some, hSum]

theorem mmap_of_not_inRange {as : AddressSpace} {va len off n : Nat} (prot : Prot) (fd : Int)
    (h : ¬ InRange va len n) : as.mmap va len prot fd off n = as n :=
  if_neg fun hIn => h hIn.2

theorem munmap_of_not_inRange {as : AddressSpace} {va len n : Nat} (h : ¬ InRange va len n) :
    as.munmap va len n = as n :=
  if_neg fun hIn => h hIn.2

/-! ## Lists of pages -/

/-- Back the pages of `ps` one after the other. -/
def mapPages (as : AddressSpace) (ps : List (Nat × Option Backing)) : AddressSpace :=
  ps.foldl (fun as p => Function.update as p.1 p.2) as

theorem mapPages_of_not_mem {as : AddressSpace} {ps : List (Nat × Option Backing)} {n : Nat}
    (h : n ∉ ps.map Prod.fst) : as.mapPages ps n = as n := by
  induction ps generalizing as with
  | nil => rfl
  | cons p ps ih =>
    rw [List.map_cons, List.mem_cons, not_or] at h
    rw [mapPages, List.foldl_cons, ← mapPages, ih h.2, Function.update_of_ne h.1]

/-- When no page number occurs twice, each page of the list ends up with its own
backing. -/
theorem mapPages_of_mem {as : AddressSpace} {ps : List (Nat × Option Backing)}
    (hDistinct : (ps.map Prod.fst).Nodup) {n : Nat} {b : Option Backing}
    (h : (n, b) ∈ ps) : as.mapPages ps n = b := by
  induction ps generalizing as with
  | nil => simp at h
  | cons p ps ih =>
    rw [List.map_cons, List.nodup_cons] at hDistinct
    rw [mapPages, List.foldl_cons, ← mapPages]
    rcases List.mem_cons.mp h with rfl | hRest
    · -- no later entry is for its page number
      rw [mapPages_of_not_mem hDistinct.1, Function.update_self]
    · exact ih hDistinct.2 hRest

/-- Removing a list of pages leaves the address space without them. -/
theorem mapPages_none {as : AddressSpace} {ns : List Nat} (n : Nat) :
    as.mapPages (ns.map fun k => (k, none)) n = if n ∈ ns then none else as n := by
  induction ns generalizing as with
  | nil => simp [mapPages]
  | cons k ns ih =>
    rw [List.map_cons, mapPages, List.foldl_cons, ← mapPages, ih]
    by_cases hk : n = k
    · subst hk
      simp
    · simp [hk]

end AddressSpace

end Machine
