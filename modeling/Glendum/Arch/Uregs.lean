import Glendum.Lib.Bytes
import Mathlib.Logic.Function.Basic

/-!
# Glendum — registers that a process hands back

A process gives the kernel values for its registers in two ways: `noted` takes the whole
structure `Ureg` from the place in user memory where `notify` has put it, and a debugger
writes some of its bytes through `setregisters`. The first checks the segment selectors and
masks the flags before it copies, the second restores both after it has copied.

The order of the fields of `Ureg` is not part of the repository; it makes no difference
(`Layout`). The kernel's structure is not in user memory. Locks and prints are left out.

* `noted_privileges` — behind `noted` the selectors are those of a user and the system
  flags are as before;
* `setregisters_privileges` — behind `setregisters` the selectors are as before, and the
  system flags are what they were in the lower half and 0 in the upper one;
* `privileges_protected` — so two images make no difference to either.
-/

namespace Glendum

open Machine

/-! ## Registers -/

inductive UregField
  | di | si | bp | nsp | bx | dx | cx | ax
  | gs | fs | es | ds
  | trap | ecode | pc | cs | flags
  /-- also `sp` -/
  | usp
  | ss
deriving DecidableEq

abbrev Ureg := UregField → Word

/-- The fields are words, each at its own place of the structure. -/
structure Layout where
  pos       : UregField → Fin 19
  injective : Function.Injective pos

def sizeofUreg : Nat := 4 * 19

def Layout.off (L : Layout) (f : UregField) : Nat := 4 * (L.pos f).val

/-- The structure that a pointer into user memory points to. -/
def Layout.image (L : Layout) (umem : Memory) (p : Word) : Ureg := fun f =>
  Memory.load32 umem (p + BitVec.ofNat 32 (L.off f))

def SELGDT : Nat := 0
def SELECTOR (i t p : Nat) : Word := BitVec.ofNat 32 (i <<< 3 ||| t ||| p)

def UDSEL : Word := SELECTOR 3 SELGDT 3
def UESEL : Word := SELECTOR 4 SELGDT 3

/-- The fields with a segment selector, and the one that a user has there. -/
def selectors : List (UregField × Word) :=
  [(.cs, UESEL), (.ss, UDSEL), (.ds, UDSEL), (.es, UDSEL), (.fs, UDSEL), (.gs, UDSEL)]

/-- The bits of the flags TF, IF, IOPL, NT, RF and VM. -/
def systemFlags : List Nat := [8, 9, 12, 13, 14, 16, 17]

/-- The low halves of the selectors and the system flags are the same. -/
structure SamePrivileges (r r' : Ureg) : Prop where
  selector : ∀ s ∈ selectors, r s.1 &&& 0xFFFF = r' s.1 &&& 0xFFFF
  flag     : ∀ b ∈ systemFlags, (r .flags).getLsbD b = (r' .flags).getLsbD b

/-! ## noted -/

def BY2WD : Nat := 4
def ERRMAX : Nat := 128
def FPillegal : Word := 0x100

def NCONT : Word := 0
def NDFLT : Word := 1
def NSAVE : Word := 2
def NRSTR : Word := 3

inductive NoteFlag
  | NUser | NExit | NDebug
deriving DecidableEq

structure Note where
  msg  : List Byte
  flag : NoteFlag

/-- The fields of `*up` that `noted` uses. -/
structure Noted where
  notified : Bool
  ureg     : Word
  fpstate  : Word
  lastnote : Note

/-- The arguments of `pexit`, which does not return. -/
structure Pexit where
  msg     : List Byte
  freemem : Bool

def suicide : Pexit := { msg := ascii "Suicide", freemem := false }

/-- `okaddr` is port code: whether the process has `len` bytes at an address. -/
abbrev Okaddr := Word → Nat → Bool → Bool

def noted (okaddr : Okaddr) (L : Layout) (up : Noted) (umem : Memory) (ureg : Ureg) (arg0 : Word) :
    Except Pexit (Ureg × Noted × Memory) :=
  if arg0 ≠ NRSTR ∧ up.notified = false then .error suicide else
  let up := { up with notified := false, fpstate := up.fpstate &&& ~~~ FPillegal }
  let oureg := up.ureg
  -- sanity clause
  if okaddr (oureg - 4) (BY2WD + sizeofUreg) false = false then .error suicide else
  let nureg := L.image umem oureg
  if ∃ s ∈ selectors, nureg s.1 &&& 0xFFFF ≠ s.2 then .error suicide else
  -- don't let user change system flags
  let umem := Memory.store32 umem (oureg + BitVec.ofNat 32 (L.off .flags))
    ((ureg .flags &&& ~~~ 0xCD5) ||| (nureg .flags &&& 0xCD5))
  let nureg := L.image umem oureg
  -- memmove of the whole structure
  let ureg := nureg
  if arg0 = NCONT ∨ arg0 = NRSTR then
    if okaddr (nureg .pc) 1 false = false ∨ okaddr (nureg .usp) BY2WD false = false then
      .error suicide
    else .ok (ureg, { up with ureg := Memory.load32 umem (oureg - 4) }, umem)
  else if arg0 = NSAVE then
    if okaddr (nureg .pc) BY2WD false = false ∨ okaddr (nureg .usp) BY2WD false = false then
      .error suicide
    else
      let sp := oureg - BitVec.ofNat 32 (4 * BY2WD) - BitVec.ofNat 32 ERRMAX
      let umem := Memory.store32 umem (sp + 4) oureg
      .ok (Function.update ureg .usp sp, up, Memory.store32 umem sp 0)
  else
    let lastnote := if arg0 = NDFLT then up.lastnote else { up.lastnote with flag := .NDebug }
    .error { msg := lastnote.msg, freemem := lastnote.flag ≠ .NDebug }

/-! ## setregisters -/

/-- The bytes at `uva`, for a place in the structure. -/
structure Image where
  pos    : Nat
  bytes  : List Byte
  inside : pos + bytes.length ≤ sizeofUreg

/-- The byte at `off`, when the image has been copied. -/
def Image.byte (p : Image) (off : Nat) (old : Byte) : Byte :=
  if p.pos ≤ off then (p.bytes[off - p.pos]?).getD old else old

def Layout.memmove (L : Layout) (r : Ureg) (p : Image) : Ureg := fun f =>
  Memory.word32 (p.byte (L.off f) ((r f).extractLsb' 0 8))
    (p.byte (L.off f + 1) ((r f).extractLsb' 8 8))
    (p.byte (L.off f + 2) ((r f).extractLsb' 16 8))
    (p.byte (L.off f + 3) ((r f).extractLsb' 24 8))

def setregisters (L : Layout) (ureg : Ureg) (p : Image) : Ureg :=
  let ss := ureg .ss
  let flags := ureg .flags
  let cs := ureg .cs
  let ds := ureg .ds
  let es := ureg .es
  let fs := ureg .fs
  let gs := ureg .gs
  let ureg := L.memmove ureg p
  let ureg := Function.update ureg .gs gs
  let ureg := Function.update ureg .fs fs
  let ureg := Function.update ureg .es es
  let ureg := Function.update ureg .ds ds
  let ureg := Function.update ureg .cs cs
  let ureg := Function.update ureg .flags ((ureg .flags &&& 0x00FF) ||| (flags &&& 0xFF00))
  Function.update ureg .ss ss

/-! ## Masks -/

section

variable {v w m : Word} {b : Nat}

/-- A bit outside of the mask of the new value is the old one. -/
theorem masked_bit (hb : b < 32) (hm : m.getLsbD b = false) :
    ((v &&& ~~~ m) ||| (w &&& m)).getLsbD b = v.getLsbD b := by
  rw [BitVec.getLsbD_or, BitVec.getLsbD_and, BitVec.getLsbD_and, BitVec.getLsbD_not, hm,
    decide_eq_true hb]
  simp

theorem noted_mask : ∀ b ∈ systemFlags, b < 32 ∧ (0xCD5 : Word).getLsbD b = false := by
  decide

theorem setregisters_mask : ∀ b ∈ systemFlags, (0x00FF : Word).getLsbD b = false := by
  decide

end

/-! ## Behind noted -/

section

variable {L : Layout}

theorem apart_fields (p : Word) {f g : UregField} (h : f ≠ g) :
    Memory.Apart (p + BitVec.ofNat 32 (L.off f)) (p + BitVec.ofNat 32 (L.off g)) := by
  have hf := (L.pos f).isLt
  have hg := (L.pos g).isLt
  have hNe : (L.pos f).val ≠ (L.pos g).val := fun hPos => h (L.injective (Fin.ext hPos))
  unfold Layout.off
  refine ⟨?_, ?_⟩ <;> bv_omega

/-- The flags are stored for the user, and then copied with the rest. -/
theorem image_store (umem : Memory) (p v : Word) :
    L.image (Memory.store32 umem (p + BitVec.ofNat 32 (L.off .flags)) v) p =
      Function.update (L.image umem p) .flags v := by
  funext f
  by_cases hFlags : f = .flags
  · subst hFlags
    rw [Function.update_self]
    exact Memory.load32_store32 _ _ _
  · rw [Function.update_of_ne hFlags]
    exact Memory.load32_store32_apart (apart_fields p (Ne.symm hFlags))

/-- Only the stack pointer is not the one of the image. -/
theorem noted_ok {okaddr : Okaddr} {up up' : Noted} {umem umem' : Memory} {ureg r : Ureg}
    {arg0 : Word} (h : noted okaddr L up umem ureg arg0 = .ok (r, up', umem')) :
    (∀ s ∈ selectors, L.image umem up.ureg s.1 &&& 0xFFFF = s.2) ∧
      ∀ f, f ≠ .usp → r f = Function.update (L.image umem up.ureg) .flags
        ((ureg .flags &&& ~~~ 0xCD5) ||| (L.image umem up.ureg .flags &&& 0xCD5)) f := by
  unfold noted at h
  split at h
  · cases h
  dsimp only at h
  split at h
  · cases h
  split at h
  · cases h
  rename_i hSelectors
  rw [image_store] at h
  push Not at hSelectors
  refine ⟨hSelectors, fun f hf => ?_⟩
  -- `NCONT` and `NRSTR`, then `NSAVE`; the other arguments do not return
  split at h
  · split at h
    · cases h
    · obtain ⟨rfl, -⟩ := Prod.mk.inj (Except.ok.inj h)
      rfl
  · split at h
    · split at h
      · cases h
      · obtain ⟨rfl, -⟩ := Prod.mk.inj (Except.ok.inj h)
        exact Function.update_of_ne hf _ _
    · cases h

theorem noted_privileges {okaddr : Okaddr} {up up' : Noted} {umem umem' : Memory} {ureg r : Ureg}
    {arg0 : Word} (h : noted okaddr L up umem ureg arg0 = .ok (r, up', umem')) :
    (∀ s ∈ selectors, r s.1 &&& 0xFFFF = s.2) ∧
      ∀ b ∈ systemFlags, (r .flags).getLsbD b = (ureg .flags).getLsbD b := by
  obtain ⟨hSelectors, hCopied⟩ := noted_ok h
  -- the checked fields are copied as they are
  have hPlain : ∀ s ∈ selectors, s.1 ≠ .usp ∧ s.1 ≠ .flags := by
    decide
  refine ⟨fun s hs => ?_, fun b hb => ?_⟩
  · obtain ⟨hUsp, hFlags⟩ := hPlain s hs
    rw [hCopied s.1 hUsp, Function.update_of_ne hFlags]
    exact hSelectors s hs
  · obtain ⟨hLt, hMask⟩ := noted_mask b hb
    rw [hCopied .flags (by decide), Function.update_self]
    exact masked_bit hLt hMask

/-! ## Behind setregisters -/

theorem setregisters_flags (ureg : Ureg) (p : Image) : setregisters L ureg p .flags =
    (L.memmove ureg p .flags &&& 0x00FF) ||| (ureg .flags &&& 0xFF00) := by
  simp [setregisters]

theorem setregisters_privileges (ureg : Ureg) (p : Image) :
    (∀ s ∈ selectors, setregisters L ureg p s.1 = ureg s.1) ∧
      ∀ b ∈ systemFlags, (setregisters L ureg p .flags).getLsbD b =
        (ureg .flags &&& 0xFF00).getLsbD b := by
  refine ⟨?_, fun b hb => ?_⟩
  · simp only [selectors, List.forall_mem_cons]
    simp [setregisters]
  · rw [setregisters_flags, BitVec.getLsbD_or, BitVec.getLsbD_and (y := 0x00FF),
      setregisters_mask b hb, Bool.and_false, Bool.false_or]

/-! ## Two images -/

/-- What a process hands back through `noted`: its memory with the image, where the image
is, and what it asks for. -/
structure Handed where
  okaddr : Okaddr
  up     : Noted
  umem   : Memory
  arg0   : Word

def Handed.noted (u : Handed) (L : Layout) (ureg : Ureg) : Except Pexit (Ureg × Noted × Memory) :=
  Glendum.noted u.okaddr L u.up u.umem ureg u.arg0

/-- Nothing that a user supplies changes the privileges, for every structure of the kernel. -/
theorem privileges_protected (L : Layout) (ureg : Ureg) :
    (∀ (u₁ u₂ : Handed) (s₁ s₂ : Ureg × Noted × Memory),
      u₁.noted L ureg = .ok s₁ → u₂.noted L ureg = .ok s₂ →
      SamePrivileges s₁.1 s₂.1 ∧ (∀ f ∈ selectors, s₁.1 f.1 &&& 0xFFFF = f.2) ∧
        ∀ b ∈ systemFlags, (s₁.1 .flags).getLsbD b = (ureg .flags).getLsbD b) ∧
    ∀ p₁ p₂ : Image, SamePrivileges (setregisters L ureg p₁) (setregisters L ureg p₂) := by
  refine ⟨?_, fun p₁ p₂ => ?_⟩
  · intro u₁ u₂ s₁ s₂ h₁ h₂
    obtain ⟨hSel₁, hFlags₁⟩ := noted_privileges h₁
    obtain ⟨hSel₂, hFlags₂⟩ := noted_privileges h₂
    refine ⟨⟨fun f hf => ?_, fun b hb => ?_⟩, hSel₁, hFlags₁⟩
    · rw [hSel₁ f hf, hSel₂ f hf]
    · rw [hFlags₁ b hb, hFlags₂ b hb]
  · obtain ⟨hSel₁, hFlags₁⟩ := setregisters_privileges (L := L) ureg p₁
    obtain ⟨hSel₂, hFlags₂⟩ := setregisters_privileges (L := L) ureg p₂
    refine ⟨fun f hf => ?_, fun b hb => ?_⟩
    · rw [hSel₁ f hf, hSel₂ f hf]
    · rw [hFlags₁ b hb, hFlags₂ b hb]

end

/-- An order of the fields, the places in the structure counted from its start. -/
def plainLayout : Layout where
  pos
    | .di => 0 | .si => 1 | .bp => 2 | .nsp => 3 | .bx => 4 | .dx => 5 | .cx => 6 | .ax => 7
    | .gs => 8 | .fs => 9 | .es => 10 | .ds => 11 | .trap => 12 | .ecode => 13 | .pc => 14
    | .cs => 15 | .flags => 16 | .usp => 17 | .ss => 18
  injective := by
    intro f g h
    cases f <;> cases g <;> first | rfl | exact absurd h (by decide)

/-- A user's registers with a value in the flags. -/
def userUreg (flags : Word) : Ureg
  | .cs => UESEL
  | .ss | .ds | .es | .fs | .gs => UDSEL
  | .flags => flags
  | _ => 0

/-- User memory with these registers at 0x1000. -/
def imageMemory (r : Ureg) : Memory :=
  [UregField.cs, .ss, .ds, .es, .fs, .gs, .flags].foldl
    (fun m f => Memory.store32 m (0x1000 + BitVec.ofNat 32 (plainLayout.off f)) (r f)) fun _ => 0

/-- The process was notified, and asks to go on. -/
def handed (flags : Word) : Handed where
  okaddr _ _ _ := true
  up := { notified := true, ureg := 0x1000, fpstate := 0, lastnote := { msg := [], flag := .NUser } }
  umem := imageMemory (userUreg flags)
  arg0 := NCONT

/-- A process that asks for all flags, and one that asks for none, go on with the same. -/
theorem noted_all_flags :
    ∃ s₁ s₂, (handed 0xFFFFFFFF).noted plainLayout (userUreg 0x202) = .ok s₁ ∧
      (handed 0).noted plainLayout (userUreg 0x202) = .ok s₂ ∧ SamePrivileges s₁.1 s₂.1 := by
  have hAll : ((handed 0xFFFFFFFF).noted plainLayout (userUreg 0x202)).isOk = true := by
    decide +kernel
  have hNone : ((handed 0).noted plainLayout (userUreg 0x202)).isOk = true := by
    decide +kernel
  cases h₁ : (handed 0xFFFFFFFF).noted plainLayout (userUreg 0x202) with
  | error e =>
    rw [h₁] at hAll
    contradiction
  | ok s₁ =>
    cases h₂ : (handed 0).noted plainLayout (userUreg 0x202) with
    | error e =>
      rw [h₂] at hNone
      contradiction
    | ok s₂ =>
      have hBoth := (privileges_protected plainLayout (userUreg 0x202)).1 _ _ s₁ s₂ h₁ h₂
      exact ⟨s₁, s₂, rfl, rfl, hBoth.1⟩

end Glendum
