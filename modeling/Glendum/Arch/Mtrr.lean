import Glendum.Lib.LowBits
import Glendum.Console.Texts
import Glendum.Arch.Fastclock

/-!
# Glendum — the memory type registers

`mtrr` sets the memory type of a range of addresses: it checks the request, looks for a pair of
registers that is free or can be taken, and encodes the range into the two as a base and a mask.
`mtrrprint` decodes them.

What the processors do to write the registers is `mtrrop`; here the registers are those that all
processors have after it. `mtrrlk` is a lock that `error` does not release.

* `dec_enc` — a range that was encoded is decoded, cut to the addresses that there are;
* `covers_enc` — the processor finds the range in the two registers.
-/

namespace Glendum

open Machine

/-! ## Registers -/

def Paerange : Uvlong := 1 <<< 36
def Nmtrr : Nat := 8
def Exthighfunc : Word := 0x80000000
def Extaddrsz : Word := 0x80000008
def Capvcnt : Uvlong := 0xff
def Capwc : Uvlong := 1 <<< 8
def Deftype : Uvlong := 0xff
/-- `BY2PG-1` -/
def pageLow : Uvlong := BitVec.ofNat 64 (BY2PG - 1)

structure Mtrreg where
  base : Uvlong
  mask : Uvlong
deriving DecidableEq

/-- `cpuid` gives what the instruction leaves in `ax`; `mtrrs` is the bit `Mtrr` of `cpuiddx`. -/
structure Processor where
  mtrrs : Bool
  cpuid : Word → Word
  /-- `MTRRCap` -/
  cap   : Uvlong
  /-- `MTRRDefaultType` -/
  deft  : Uvlong

def Processor.vcnt (P : Processor) : Nat := (P.cap &&& Capvcnt).toNat

def types : List String := ["uc", "wc", "uk1", "uk2", "wt", "wp", "wb"]

def Writecomb : Nat := 1

/-- `%s` of `type2str(type)`. -/
def type2str (type : Nat) : List Byte := ascii ((types[type]?).getD "<nil>")

def str2type (str : CStr) : Option Nat := types.findIdx? fun p => str.1 = ascii p

def Processor.physmask (P : Processor) : Uvlong :=
  let mask : Uvlong := if P.cpuid Exthighfunc ≥ Extaddrsz
    then (1#64 <<< (P.cpuid Extaddrsz &&& 0xFF).toNat) - 1 else -1
  mask &&& (Paerange - 1)

/-- Limit physical addresses to 36 bits on the x86. -/
def sanity (mtrr : Mtrreg) : Mtrreg where
  base := mtrr.base &&& (Paerange - 1)
  mask := mtrr.mask &&& (Paerange - 1)

def ispow2 (ul : Uvlong) : Bool := ul &&& (ul - 1) == 0

/-- A range of addresses and its type. -/
structure Range where
  base : Uvlong
  size : Uvlong
  type : Nat
deriving DecidableEq

/-- What `mtrrdec` stores, where it returns true. -/
def Processor.mtrrdec (P : Processor) (mtrr : Mtrreg) : Option Range :=
  let mtrr := sanity mtrr
  if (mtrr.mask >>> 11) &&& 1 = 0 then none else some
    { base := mtrr.base &&& ~~~pageLow
      size := (P.physmask ^^^ (mtrr.mask &&& ~~~pageLow)) + 1
      type := (mtrr.base &&& 0xff).toNat }

def Processor.mtrrenc (P : Processor) (ptr size : Uvlong) (type : Nat) (ok : Bool) : Mtrreg :=
  sanity
    { base := ptr ||| (BitVec.ofNat 64 type &&& 0xff)
      mask := (P.physmask &&& ~~~(size - 1)) ||| (if ok then 1 <<< 11 else 0) }

/-! ## mtrr -/

structure Mtrrs (P : Processor) where
  regs   : List Mtrreg
  mtrrlk : Bool
  vcnt   : regs.length = P.vcnt

inductive MtrrAnswer
  | done
  | error (msg : String)
  /-- it sleeps in `qlock` for ever -/
  | sleeps
deriving DecidableEq

structure MtrrCall where
  base : Uvlong
  size : Uvlong
  tstr : CStr

/-- What comes before `qlock`: the type, or an error. -/
def Processor.mtrrcheck (P : Processor) (c : MtrrCall) : Except String Nat := do
  if !P.mtrrs then throw "mtrrs not supported"
  if c.base &&& pageLow ≠ 0 ∨ c.size &&& pageLow ≠ 0 ∨ c.size = 0 then
    throw "mtrr base or size not 4k aligned or zero size"
  if c.base + c.size ≥ Paerange then throw "mtrr range exceeds 36 bits"
  if !ispow2 c.size then throw "mtrr size not power of 2"
  if c.base &&& (c.size - 1) ≠ 0 then throw "mtrr base not naturally aligned"
  match str2type c.tstr with
  | none => throw "mtrr bad type"
  | some type =>
    if type = 2 ∨ type = 3 then throw "mtrr unknown type"
    if type = Writecomb ∧ P.cap &&& Capwc = 0 then
      throw "mtrr type wc (write combining) unsupported"
    return type

/-- The loop over the registers; `none` where `slot` stays at -1. -/
def Processor.mtrrslot (P : Processor) (base size : Uvlong) : Nat → List Mtrreg → Except String (Option Nat)
  | _, [] => .ok none
  | i, r :: rs =>
    if i ≥ Nmtrr then .error "mtrr index out of range" else
    match P.mtrrdec (sanity r) with
    | none => .ok (some i)
    | some q =>
      -- reuse any entry for addresses above 4GB
      if q.base = base ∧ q.size = size ∨ q.base ≥ 1 <<< 32 then .ok (some i)
      else P.mtrrslot base size (i + 1) rs

def Processor.mtrr (P : Processor) (s : Mtrrs P) (c : MtrrCall) : MtrrAnswer × Mtrrs P :=
  match P.mtrrcheck c with
  | .error msg => (.error msg, s)
  | .ok type =>
    if s.mtrrlk then (.sleeps, s) else
    match P.mtrrslot c.base c.size 0 s.regs with
    | .error msg => (.error msg, { s with mtrrlk := true })
    | .ok none => (.error "no free mtrr slots", { s with mtrrlk := true })
    | .ok (some slot) =>
      let entry := P.mtrrenc c.base c.size type true
      (.done, { s with
        regs := s.regs.set slot (sanity entry)
        vcnt := by rw [List.length_set, s.vcnt] })

/-! ## mtrrprint -/

def hexText (v : Uvlong) : List Byte := (Nat.toDigits 16 v.toNat).map ch

/-- `cache default %s` -/
def Processor.defaultLine (P : Processor) : List Byte :=
  ascii "cache default " ++ type2str (P.deft &&& Deftype).toNat ++ ascii "\n"

/-- `cache 0x%llux %llud %s` -/
def Range.line (q : Range) : List Byte :=
  ascii "cache 0x" ++ hexText q.base ++ ascii " " ++ decimal q.size.toNat ++ ascii " " ++
    type2str q.type ++ ascii "\n"

/-- The loop over the registers, with what is in the buffer. -/
def Processor.printRegs (P : Processor) (bufsize : Nat) : Nat → List Byte → List Mtrreg → Except String (List Byte)
  | _, buf, [] => .ok buf
  | i, buf, r :: rs =>
    if i ≥ Nmtrr then .error "mtrr index out of range" else
    match P.mtrrdec (sanity r) with
    | none => P.printRegs bufsize (i + 1) buf rs
    | some q => P.printRegs bufsize (i + 1) (buf ++ snprint (bufsize - buf.length) q.line) rs

/-- The buffer has room for a byte at least. In an empty one `snprint` has no place for its NUL and
returns -1, by which the library's pointer would go back; here nothing is printed then. -/
def Processor.mtrrprint (P : Processor) (s : Mtrrs P) (bufsize : Nat) : Except String (List Byte) :=
  if !P.mtrrs then .ok [] else
  P.printRegs bufsize 0 (snprint bufsize P.defaultLine) s.regs

/-! ## What the processor makes of the registers -/

/-- The address is in the range of the two registers. -/
def Mtrreg.Covers (r : Mtrreg) (a : Uvlong) : Prop :=
  r.mask.getLsbD 11 = true ∧ a &&& (r.mask &&& ~~~pageLow) = r.base &&& (r.mask &&& ~~~pageLow)

instance (r : Mtrreg) (a : Uvlong) : Decidable (r.Covers a) := inferInstanceAs (Decidable (_ ∧ _))

/-- The type that the first register holds. -/
def Mtrreg.memtype (r : Mtrreg) : Nat := (r.base &&& 0xff).toNat

/-! ## Masks -/

section

variable {P : Processor} {k : Nat} {ptr size : Uvlong} {type i : Nat}

/-- The number of bits of an address. -/
def Processor.physbits (P : Processor) : Nat :=
  if P.cpuid Exthighfunc ≥ Extaddrsz then min (P.cpuid Extaddrsz &&& 0xFF).toNat 36 else 36

/-- No processor is taken to have more than 36 bits, by `Paerange`. -/
theorem physbits_le : P.physbits ≤ 36 := by
  unfold Processor.physbits
  split
  · exact Nat.min_le_right _ _
  · exact Nat.le_refl 36

/-- A power of two less 1 has the bits below it. -/
theorem getLsbD_ones (n i : Nat) :
    ((1#64 <<< n) - 1).getLsbD i = (decide (i < 64) && decide (i < n)) := by
  by_cases hn : n < 64
  · rw [← BitVec.twoPow_eq, twoPow_sub_one hn, getLsbD_low]
  · -- all bits are shifted out
    have hZero : 1#64 <<< n = 0 := BitVec.shiftLeft_eq_zero (by omega)
    have hAll : (0 : Uvlong) - 1 = low 64 64 := by decide
    rw [hZero, hAll, getLsbD_low]
    by_cases hi : i < 64
    · rw [decide_eq_true hi, decide_eq_true (by omega)]
    · rw [decide_eq_false hi, Bool.false_and, Bool.false_and]

/-- The mask of the addresses, the offset in a page, the type and the processor's own addresses
are all the low bits up to some width. -/
theorem Paerange_sub_one : Paerange - 1 = low 64 36 := by decide

theorem pageLow_eq : pageLow = low 64 12 := by decide

theorem byteMask_eq : (0xff : Uvlong) = low 64 8 := by decide

theorem physmask_eq : P.physmask = low 64 P.physbits := by
  refine BitVec.eq_of_getLsbD_eq fun i hi => ?_
  unfold Processor.physmask Processor.physbits
  rw [BitVec.getLsbD_and, Paerange_sub_one, getLsbD_low, getLsbD_low, decide_eq_true hi, Bool.true_and,
    Bool.true_and]
  split
  · rw [getLsbD_ones, decide_eq_true hi, Bool.true_and, ← Bool.decide_and]
    exact decide_eq_decide.mpr Nat.lt_min.symm
  · have hAll : (-1 : Uvlong) = low 64 64 := by decide
    rw [hAll, getLsbD_low, decide_eq_true hi, Bool.true_and, Bool.true_and]

/-- The repair of a mask changes nothing the second time. -/
theorem sanity_sanity (r : Mtrreg) : sanity (sanity r) = sanity r := by
  unfold sanity
  simp only [BitVec.and_assoc, BitVec.and_self]

/-- So `mtrrdec` does not see whether a mask was repaired before. -/
theorem mtrrdec_sanity (r : Mtrreg) : P.mtrrdec (sanity r) = P.mtrrdec r := by
  unfold Processor.mtrrdec
  rw [sanity_sanity]

/-- An encoded mask needs no repair. -/
theorem sanity_enc (ok : Bool) : sanity (P.mtrrenc ptr size type ok) = P.mtrrenc ptr size type ok :=
  sanity_sanity _

/-! ## The code of a range -/

/-- The mask has the valid bit and the bits of an address from the size on. -/
theorem enc_mask (hk : k < 64) (hPage : 12 ≤ k) (ptr : Uvlong) (type : Nat) (hi : i < 64) :
    (P.mtrrenc ptr (BitVec.twoPow 64 k) type true).mask.getLsbD i =
      (decide (i = 11) || (decide (k ≤ i) && decide (i < P.physbits))) := by
  have hLe := physbits_le (P := P)
  have hValid : (1 <<< 11 : Uvlong) = BitVec.twoPow 64 11 := by decide
  unfold Processor.mtrrenc sanity
  rw [twoPow_sub_one hk, physmask_eq, Paerange_sub_one, if_pos rfl, hValid]
  simp only [BitVec.getLsbD_and, BitVec.getLsbD_or, BitVec.getLsbD_not, getLsbD_low,
    BitVec.getLsbD_twoPow, hi, decide_true, Bool.true_and]
  rw [Bool.eq_iff_iff]
  simp only [Bool.and_eq_true, Bool.or_eq_true, decide_eq_true_eq, Bool.not_eq_true',
    decide_eq_false_iff_not]
  omega

/-- The base has the address, and the type where the address has no bits. -/
theorem enc_base (ptr size : Uvlong) (type : Nat) (hi : i < 64) :
    (P.mtrrenc ptr size type true).base.getLsbD i =
      (decide (i < 36) && (ptr.getLsbD i || (decide (i < 8) && (BitVec.ofNat 64 type).getLsbD i))) := by
  unfold Processor.mtrrenc sanity
  rw [Paerange_sub_one, byteMask_eq]
  simp only [BitVec.getLsbD_and, BitVec.getLsbD_or, getLsbD_low, hi, decide_true, Bool.true_and]
  rw [Bool.and_comm, Bool.and_comm ((BitVec.ofNat 64 type).getLsbD i)]

/-- A range that is encoded as valid is found valid. -/
theorem dec_valid (hk : k < 64) (hPage : 12 ≤ k) :
    ((P.mtrrenc ptr (BitVec.twoPow 64 k) type true).mask >>> 11) &&& 1 ≠ 0 := by
  intro hZero
  have hBit := congrArg (fun v => v.getLsbD 0) hZero
  have hOne : (1 : Uvlong).getLsbD 0 = true := by decide
  have hValid := enc_mask (P := P) hk hPage ptr type (i := 11) (by decide)
  simp only [BitVec.getLsbD_and, BitVec.getLsbD_ushiftRight, hOne, Bool.and_true, Nat.add_zero] at hBit
  rw [hValid, decide_eq_true rfl, Bool.true_or] at hBit
  exact absurd hBit (by decide)

/-- The base comes back, less what the processor's addresses do not have. -/
theorem dec_base (hPtr : ptr &&& pageLow = 0) :
    (P.mtrrenc ptr size type true).base &&& ~~~pageLow = ptr &&& low 64 36 := by
  rw [pageLow_eq] at hPtr ⊢
  refine BitVec.eq_of_getLsbD_eq fun i hi => ?_
  rw [BitVec.getLsbD_and, enc_base ptr size type hi, BitVec.getLsbD_not, BitVec.getLsbD_and, getLsbD_low,
    getLsbD_low, decide_eq_true hi, Bool.true_and, Bool.true_and, Bool.true_and]
  by_cases hPage : i < 12
  · rw [getLsbD_of_aligned hPtr hPage, decide_eq_true hPage, Bool.false_and]
    exact Bool.and_false _
  · rw [decide_eq_false hPage, decide_eq_false (by omega : ¬ i < 8), Bool.false_and, Bool.or_false]
    show (_ && _ && true) = _
    rw [Bool.and_true, Bool.and_comm]

/-- The type comes back from the low byte of the base. -/
theorem dec_type (hPtr : ptr &&& pageLow = 0) (hType : type < 8) :
    ((P.mtrrenc ptr size type true).base &&& 0xff).toNat = type := by
  have hBits : (P.mtrrenc ptr size type true).base &&& 0xff = BitVec.ofNat 64 type &&& 0xff := by
    rw [pageLow_eq] at hPtr
    rw [byteMask_eq]
    refine BitVec.eq_of_getLsbD_eq fun i hi => ?_
    rw [BitVec.getLsbD_and, enc_base ptr size type hi, BitVec.getLsbD_and, getLsbD_low,
      decide_eq_true hi, Bool.true_and]
    by_cases hByte : i < 8
    · rw [getLsbD_of_aligned hPtr (by omega : i < 12), decide_eq_true hByte,
        decide_eq_true (by omega : i < 36)]
      rfl
    · rw [decide_eq_false hByte, Bool.and_false, Bool.and_false]
  rw [hBits, byteMask_eq, toNat_and_low _ (by decide), BitVec.toNat_ofNat]
  omega

/-- The mask is turned back into a size. -/
theorem dec_size (hk : k < 64) (hPage : 12 ≤ k) :
    (P.physmask ^^^ ((P.mtrrenc ptr (BitVec.twoPow 64 k) type true).mask &&& ~~~pageLow)) + 1 =
      BitVec.twoPow 64 (min k P.physbits) := by
  have hLe := physbits_le (P := P)
  rw [← low_add_one (by omega : min k P.physbits < 64)]
  refine congrArg (· + 1) (BitVec.eq_of_getLsbD_eq fun i hi => ?_)
  rw [physmask_eq, pageLow_eq, BitVec.getLsbD_xor, BitVec.getLsbD_and, enc_mask hk hPage ptr type hi, BitVec.getLsbD_not,
    getLsbD_low, getLsbD_low, getLsbD_low, decide_eq_true hi, Bool.true_and, Bool.true_and, Bool.true_and,
    Bool.true_and, ← decide_not, ← Bool.decide_and, ← Bool.decide_or, ← Bool.decide_and, Bool.eq_iff_iff,
    Bool.xor_iff_ne, ne_eq, decide_eq_decide, decide_eq_true_eq]
  omega

/-- The range as it is decoded: addresses have 36 bits, and sizes no more than there are. -/
def Processor.stored (P : Processor) (ptr size : Uvlong) (type : Nat) : Range where
  base := ptr &&& low 64 36
  size := if size.toNat ≤ 2 ^ P.physbits then size else BitVec.twoPow 64 P.physbits
  type := type

/-- The decoding gives back what was encoded, with the size cut to the addresses that there are.
-/
theorem dec_enc (hk : k < 64) (hPage : 12 ≤ k) (hPtr : ptr &&& pageLow = 0) (hType : type < 8) :
    P.mtrrdec (P.mtrrenc ptr (BitVec.twoPow 64 k) type true) =
      some (P.stored ptr (BitVec.twoPow 64 k) type) := by
  have hSize : BitVec.twoPow 64 (min k P.physbits) = (P.stored ptr (BitVec.twoPow 64 k) type).size := by
    show _ = if _ then _ else _
    rw [BitVec.toNat_twoPow_of_lt hk]
    split
    · rename_i hFits
      rw [Nat.min_eq_left ((Nat.pow_le_pow_iff_right (by decide)).mp hFits)]
    · rename_i hFits
      have hLess : ¬ k ≤ P.physbits := fun hk' => hFits (Nat.pow_le_pow_right (by decide) hk')
      rw [Nat.min_eq_right (by omega)]
  unfold Processor.mtrrdec
  simp only [sanity_enc]
  rw [if_neg (dec_valid hk hPage), dec_base hPtr, dec_type hPtr hType, dec_size hk hPage, hSize]
  rfl

/-- The processor finds the addresses of the range, and no others. -/
theorem covers_enc (hk : k < 64) (hPage : 12 ≤ k) (hFits : k ≤ P.physbits)
    (hAligned : ptr &&& low 64 k = 0) (hPtr : ptr.toNat < 2 ^ P.physbits) {a : Uvlong}
    (ha : a.toNat < 2 ^ P.physbits) :
    (P.mtrrenc ptr (BitVec.twoPow 64 k) type true).Covers a ↔
      ptr.toNat ≤ a.toNat ∧ a.toNat < ptr.toNat + 2 ^ k := by
  have hLe := physbits_le (P := P)
  have hValid := enc_mask (P := P) hk hPage ptr type (i := 11) (by decide)
  rw [← block_iff (Nat.two_pow_pos k) ((and_low_eq_zero (by omega)).mp hAligned),
    ← agree_iff ha hPtr]
  unfold Mtrreg.Covers
  rw [hValid, pageLow_eq]
  constructor
  · -- the mask has the bits from the size on
    rintro ⟨-, hAgree⟩ i hki hi
    have hBit := congrArg (fun v => v.getLsbD i) hAgree
    simp only [BitVec.getLsbD_and, BitVec.getLsbD_not, getLsbD_low] at hBit
    rw [enc_mask hk hPage ptr type (by omega), enc_base ptr _ type (by omega)] at hBit
    rw [decide_eq_true hki, decide_eq_true hi, decide_eq_true (by omega : i < 64),
      decide_eq_true (by omega : i < 36), decide_eq_false (by omega : ¬ i < 12),
      decide_eq_false (by omega : ¬ i < 8), Bool.false_and, Bool.or_false] at hBit
    simpa using hBit
  · intro hAgree
    refine ⟨by rw [decide_eq_true rfl, Bool.true_or], BitVec.eq_of_getLsbD_eq fun i hi => ?_⟩
    simp only [BitVec.getLsbD_and, BitVec.getLsbD_not, getLsbD_low]
    rw [enc_mask hk hPage ptr type hi, enc_base ptr _ type hi]
    by_cases hIn : k ≤ i ∧ i < P.physbits
    · rw [hAgree i hIn.1 hIn.2, decide_eq_true (by omega : i < 36), decide_eq_false (by omega : ¬ i < 8),
        Bool.false_and, Bool.or_false, Bool.true_and]
    · -- the mask has no other bits but the valid one, which is not of an address
      have hOut : (decide (i = 11) || (decide (k ≤ i) && decide (i < P.physbits))) = decide (i = 11) := by
        rw [← Bool.decide_and, decide_eq_false hIn, Bool.or_false]
      rw [hOut]
      by_cases hEleven : i = 11
      · rw [decide_eq_true (by omega : i < 12), decide_eq_true hi]
        simp
      · rw [decide_eq_false hEleven]
        simp

end

end Glendum
