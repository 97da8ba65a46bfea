import Glendum.Lib.Bytes

/-!
# Glendum — the symbol table of a kernel image

The entries of the symbol table, and one turn of the loop of `hostlink` over its
bytes (`readSym`). An entry is as long as `strlen` or `dblen` says; `dblen` looks
for two zero bytes in a row, at any distance, while the units of a path are two
bytes wide.

* `readSym_name`, `readSym_path` — the turn reads the entry and finds its length;
* `readSym_slip` — a path with a zero low byte before a zero high byte is cut short.
-/

namespace Glendum

open Machine

/-! ## Entries -/

/-- An entry of any type but `Z` and `z`. -/
structure NameEntry where
  addr    : Word
  type    : Byte
  name    : List Byte
  typeLow : type < 0x80
  notPath : type ≠ ch 'Z' ∧ type ≠ ch 'z'
  noNul   : (0 : Byte) ∉ name

/-- An entry of type `Z` or `z`: 2-byte units, high byte first. -/
structure PathEntry where
  addr    : Word
  type    : Byte
  units   : List (Byte × Byte)
  isPath  : type = ch 'Z' ∨ type = ch 'z'
  nonzero : ((0, 0) : Byte × Byte) ∉ units

inductive SymEntry
  | name (s : NameEntry)
  | path (p : PathEntry)

def unitBytes (us : List (Byte × Byte)) : List Byte := us.flatMap fun u => [u.1, u.2]

/-- The bytes of an entry in the file. -/
def SymEntry.encode : SymEntry → List Byte
  | .name s => be32 s.addr ++ (s.type + 0x80) :: (s.name ++ [0])
  | .path p => be32 p.addr ++ (p.type + 0x80) :: 0 :: (unitBytes p.units ++ [0, 0])

def encodeAll (es : List SymEntry) : List Byte := es.flatMap SymEntry.encode

/-- A zero low byte with a zero high byte after it, in the next unit or in the one
that ends the path. -/
def slips : List (Byte × Byte) → Bool
  | [] => false
  | u :: us => (u.2 == 0 && (us.headD (0, 0)).1 == 0) || slips us

def SymEntry.slips : SymEntry → Bool
  | .name _ => false
  | .path p => Glendum.slips p.units

/-! ## One turn of the loop -/

def dblen : List Byte → Option Nat
  | a :: b :: rest => if a = 0 ∧ b = 0 then some 0 else (dblen (b :: rest)).map (· + 1)
  | _ => none

/-- The variables of the loop that a turn sets; `symname` is the memory from the
pointer on. -/
structure SymRead where
  addr    : Word
  stype   : Byte
  symname : List Byte
  symsize : Nat

/-- `symp` is the memory from the cursor on. -/
def readSym (symp : List Byte) : Option SymRead :=
  match readBe32 symp, symp[4]? with
  | some addr, some t =>
    -- the type has its high bit set in the file
    let stype := t - 0x80
    let symname := symp.drop 5
    let symsize :=
      -- a path has a zero byte in front, which `dblen` does not look at
      if stype = ch 'Z' ∨ stype = ch 'z' then (dblen (symname.drop 1)).map fun n => 5 + n + 3
      else (strlen symname).map fun n => 5 + n + 1
    symsize.map fun symsize => { addr, stype, symname, symsize }
  | _, _ => none

/-- `stype == 'T'` and the name is the given one. -/
def SymRead.isText (r : SymRead) (name : String) : Bool :=
  r.stype == ch 'T' && cstring r.symname == ascii name

/-! ## dblen over the units of a path -/

section

variable {us : List (Byte × Byte)} {rest : List Byte}

/-- The first high byte, also when it is the one of the unit that ends the path. -/
theorem unitBytes_head (us : List (Byte × Byte)) (rest : List Byte) : ∃ tail,
    unitBytes us ++ 0 :: 0 :: rest = (us.headD (0, 0)).1 :: tail := by
  cases us with
  | nil => exact ⟨_, rfl⟩
  | cons u us => exact ⟨_, rfl⟩

/-- `dblen` at a unit: the unit itself is not the end, but its low byte may be half
of it. -/
theorem dblen_unit {u : Byte × Byte} (hu : u ≠ (0, 0)) :
    dblen (unitBytes (u :: us) ++ 0 :: 0 :: rest) =
      if u.2 = 0 ∧ (us.headD (0, 0)).1 = 0 then some 1
      else (dblen (unitBytes us ++ 0 :: 0 :: rest)).map (· + 2) := by
  obtain ⟨tail, hTail⟩ := unitBytes_head us rest
  have hUnit : ¬ (u.1 = 0 ∧ u.2 = 0) := fun h => hu (Prod.ext h.1 h.2)
  have hSplit : unitBytes (u :: us) ++ 0 :: 0 :: rest = u.1 :: u.2 :: (us.headD (0, 0)).1 :: tail := by
    rw [← hTail]
    rfl
  -- two turns of `dblen`: at the high byte, and at the low byte with the next high byte
  rw [hSplit, hTail, dblen, if_neg hUnit, dblen]
  by_cases hSlip : u.2 = 0 ∧ (us.headD (0, 0)).1 = 0
  · rw [if_pos hSlip, if_pos hSlip]
    rfl
  · rw [if_neg hSlip, if_neg hSlip, Option.map_map]
    rfl

theorem dblen_aligned (hUnits : ((0, 0) : Byte × Byte) ∉ us) (hSlips : slips us = false) :
    dblen (unitBytes us ++ 0 :: 0 :: rest) = some (2 * us.length) := by
  induction us with
  | nil => rfl
  | cons u us ih =>
    rw [List.mem_cons, not_or] at hUnits
    rw [slips, Bool.or_eq_false_iff] at hSlips
    have hHere : ¬ (u.2 = 0 ∧ (us.headD (0, 0)).1 = 0) := by simpa using hSlips.1
    rw [dblen_unit (Ne.symm hUnits.1), if_neg hHere, ih hUnits.2 hSlips.2]
    simp [Nat.mul_add]

theorem dblen_slips (rest : List Byte) (hUnits : ((0, 0) : Byte × Byte) ∉ us)
    (hSlips : slips us = true) :
    ∃ n, dblen (unitBytes us ++ 0 :: 0 :: rest) = some n ∧ n < 2 * us.length := by
  induction us with
  | nil => simp [slips] at hSlips
  | cons u us ih =>
    rw [List.mem_cons, not_or] at hUnits
    rw [dblen_unit (Ne.symm hUnits.1), List.length_cons]
    by_cases hHere : u.2 = 0 ∧ (us.headD (0, 0)).1 = 0
    · -- the end is found across this unit and the next
      rw [if_pos hHere]
      exact ⟨1, rfl, by omega⟩
    · rw [if_neg hHere]
      have hLater : slips us = true := by
        rw [slips, Bool.or_eq_true] at hSlips
        exact hSlips.resolve_left (by simpa using hHere)
      obtain ⟨n, hn, hShort⟩ := ih hUnits.2 hLater
      exact ⟨n + 2, by rw [hn]; rfl, by omega⟩

theorem length_unitBytes (us : List (Byte × Byte)) : (unitBytes us).length = 2 * us.length := by
  induction us with
  | nil => rfl
  | cons u us ih =>
    have hCons : unitBytes (u :: us) = u.1 :: u.2 :: unitBytes us := rfl
    rw [hCons, List.length_cons, List.length_cons, List.length_cons, ih]
    omega

end

/-! ## The turn over an entry -/

/-- The address and the type of an entry, in front of its name. -/
theorem readSym_header (addr : Word) (type : Byte) (symname : List Byte) :
    readSym (be32 addr ++ (type + 0x80) :: symname) =
      (if type = ch 'Z' ∨ type = ch 'z' then (dblen (symname.drop 1)).map fun n => 5 + n + 3
        else (strlen symname).map fun n => 5 + n + 1).map
        fun symsize => { addr, stype := type, symname, symsize } := by
  have hAddr := readBe32_append addr ((type + 0x80) :: symname)
  have hType : (be32 addr ++ (type + 0x80) :: symname)[4]? = some (type + 0x80) := rfl
  have hName : (be32 addr ++ (type + 0x80) :: symname).drop 5 = symname := rfl
  have hLetter : type + 0x80 - 0x80 = type := BitVec.add_sub_cancel type 0x80
  unfold readSym
  rw [hAddr, hType]
  dsimp only
  rw [hName, hLetter]

theorem readSym_name (s : NameEntry) (rest : List Byte) :
    readSym ((SymEntry.name s).encode ++ rest) = some {
      addr := s.addr, stype := s.type, symname := s.name ++ 0 :: rest,
      symsize := (SymEntry.name s).encode.length } := by
  have hBytes : (SymEntry.name s).encode ++ rest =
      be32 s.addr ++ (s.type + 0x80) :: (s.name ++ 0 :: rest) := by simp [SymEntry.encode]
  have hLength : (SymEntry.name s).encode.length = 5 + s.name.length + 1 := by
    simp [SymEntry.encode]
    omega
  rw [hBytes, readSym_header, if_neg (not_or.mpr s.notPath), strlen_append s.noNul, hLength]
  rfl

/-- The bytes of a path entry, with the units in front of what follows. -/
theorem encode_path (p : PathEntry) (rest : List Byte) : (SymEntry.path p).encode ++ rest =
    be32 p.addr ++ (p.type + 0x80) :: 0 :: (unitBytes p.units ++ 0 :: 0 :: rest) := by
  simp [SymEntry.encode]

theorem length_encode_path (p : PathEntry) :
    (SymEntry.path p).encode.length = 5 + 2 * p.units.length + 3 := by
  simp [SymEntry.encode, length_unitBytes]
  omega

theorem readSym_path (p : PathEntry) (rest : List Byte) (hSlips : slips p.units = false) :
    readSym ((SymEntry.path p).encode ++ rest) = some {
      addr := p.addr, stype := p.type, symname := 0 :: (unitBytes p.units ++ 0 :: 0 :: rest),
      symsize := (SymEntry.path p).encode.length } := by
  rw [encode_path, readSym_header, if_pos p.isPath, List.drop_one, List.tail_cons,
    dblen_aligned p.nonzero hSlips, length_encode_path]
  rfl

/-- The cursor stops inside a path that slips. -/
theorem readSym_slip (p : PathEntry) (rest : List Byte) (hSlips : slips p.units = true) :
    ∃ r, readSym ((SymEntry.path p).encode ++ rest) = some r ∧ r.stype = p.type ∧
      r.symsize < (SymEntry.path p).encode.length := by
  obtain ⟨n, hn, hShort⟩ := dblen_slips rest p.nonzero hSlips
  rw [encode_path, readSym_header, if_pos p.isPath, List.drop_one, List.tail_cons, hn]
  refine ⟨_, rfl, rfl, ?_⟩
  rw [length_encode_path]
  dsimp only
  omega

end Glendum
