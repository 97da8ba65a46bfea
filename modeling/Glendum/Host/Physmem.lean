import Glendum.Kernel.Page
import Glendum.Uthread.Model

/-!
# Glendum — the memory file

The memory of the kernel and of its user threads is one file. `mkmemfile` opens it;
`physmem` extends it and maps it for the kernel at `PHYSBASE`; `hostmem` reports it to
the allocator as one bank of pages. The descriptors of the host process are a table from
numbers to open files, and a byte of memory is a byte of a file.

`bootMem` is the part of the start of the kernel that concerns the file, in the order of
`main`: `uthreadinit` opens it and forks the user threads, `meminit` maps it.

* `bootMem_spec` — what the start leaves behind.
-/

namespace Glendum

open Machine

def PHYSMEM : Nat := 256 * 1024 * 1024
def NPAGE : Nat := PHYSMEM / 4096

def physmemPath : String := "/tmp/physmem"

structure Descriptor where
  path : String
  pos  : Nat

/-- The host process that runs the kernel, and the sizes of the files by their paths.
`memfd` is the variable of `umhost.c`, −1 before the file is opened. -/
structure HostMem where
  memfd : Int
  fds   : Int → Option Descriptor
  size  : String → Nat
  space : AddressSpace

/-- `openFd` is the answer of `open`. An error is the code the process exits with. -/
def mkmemfile (openFd : Int) (h : HostMem) : Except Int (Int × HostMem) :=
  if openFd = -1 then .error (-25)
  else .ok (openFd,
    { h with memfd := openFd
             fds := Function.update h.fds openFd (some { path := physmemPath, pos := 0 }) })

/-- What the host answers to the calls of `physmem`: a descriptor, and whether the rest
succeeds. -/
structure PhysmemCalls where
  openFd : Int
  lseek  : Bool
  write  : Bool
  mmap   : Bool

/-- From the call of `lseek` on. -/
def extendAndMap (c : PhysmemCalls) (fd : Int) (h : HostMem) : Except Int (Word × HostMem) :=
  match h.fds fd with
  | none => .error (-26)
  | some d =>
    if c.lseek = false then .error (-26) else
    let pos := d.pos + PHYSMEM
    if c.write = false then .error (-26) else
    -- one byte is written behind the last byte of the memory
    let fds := Function.update h.fds fd (some { d with pos := pos + 1 })
    let size := Function.update h.size d.path (max (h.size d.path) (pos + 1))
    if c.mmap = false then .error (-27) else
    let prot : Prot := { read := true, write := true, exec := false }
    .ok (PHYSBASE,
      { memfd := fd, fds, size, space := h.space.mmap PHYSBASE.toNat PHYSMEM prot fd 0 })

def physmem (c : PhysmemCalls) (h : HostMem) : Except Int (Word × HostMem) :=
  if h.memfd = -1 then
    match mkmemfile c.openFd h with
    | .error e => .error e
    | .ok (fd, h) => extendAndMap c fd h
  else extendAndMap c h.memfd h

def hostmem (c : PhysmemCalls) (h : HostMem) : Except Int (Pallocmem × HostMem) :=
  match physmem c h with
  | .error e => .error e
  | .ok (phmem, h) => .ok ({ base := phmem, npage := NPAGE }, h)

/-- After the start: the variable `memfd` of `uthread.c`, the descriptors that the user
threads were forked with, the process of the kernel, and the bank. -/
structure BootMem where
  memfd     : Int
  threadFds : Int → Option Descriptor
  host      : HostMem
  bank      : Pallocmem

def bootMem (openFd : Int) (c : PhysmemCalls) (h : HostMem) : Except Int BootMem :=
  match mkmemfile openFd h with
  | .error e => .error e
  | .ok (memfd, h) =>
    let threadFds := h.fds
    match hostmem c h with
    | .error e => .error e
    | .ok (bank, h) => .ok { memfd, threadFds, host := h, bank }

/-- The file behind a byte of an address space, under a table of descriptors. -/
def fileByteOf (fds : Int → Option Descriptor) (as : AddressSpace) (a : Nat) :
    Option (String × Nat) :=
  (as.fileByte a).bind fun b => (fds b.1).map fun d => (d.path, b.2)

/-- What the kernel finds at the address `a`. -/
def BootMem.kernelByte (b : BootMem) (a : Nat) : Option (String × Nat) :=
  fileByteOf b.host.fds b.host.space a

/-- What a user thread finds at the address `a`. -/
def BootMem.threadByte (b : BootMem) (u : UserSide) (a : Nat) : Option (String × Nat) :=
  fileByteOf b.threadFds u.space a

/-! ## After the start -/

/-- The descriptor of the user threads and that of the kernel's mapping are open on the
memory file, which is longer than the memory. -/
structure BootMem.Ready (b : BootMem) : Prop where
  bank       : b.bank = { base := PHYSBASE, npage := NPAGE }
  threadFile : (b.threadFds b.memfd).map Descriptor.path = some physmemPath
  kernelFile : (b.host.fds b.memfd).map Descriptor.path = some physmemPath
  extended   : PHYSMEM < b.host.size physmemPath
  mapped     : ∃ as prot, b.host.space =
    AddressSpace.mmap as PHYSBASE.toNat PHYSMEM prot b.memfd 0

theorem bootMem_spec {openFd : Int} {c : PhysmemCalls} {h : HostMem} {b : BootMem}
    (hBoot : bootMem openFd c h = .ok b) : b.Ready := by
  unfold bootMem mkmemfile at hBoot
  by_cases hOpen : openFd = -1
  · simp [hOpen] at hBoot
  simp only [if_neg hOpen] at hBoot
  -- `physmem` finds the descriptor of `uthreadinit`
  simp only [hostmem, physmem, if_neg hOpen, extendAndMap, Function.update_self] at hBoot
  cases hSeek : c.lseek with
  | false => simp [hSeek] at hBoot
  | true =>
    cases hWrite : c.write with
    | false => simp [hSeek, hWrite] at hBoot
    | true =>
      cases hMap : c.mmap with
      | false => simp [hSeek, hWrite, hMap] at hBoot
      | true =>
        simp only [hSeek, hWrite, hMap, Bool.true_eq_false, if_false, Except.ok.injEq] at hBoot
        subst hBoot
        refine ⟨rfl, ?_, ?_, ?_, _, _, rfl⟩
        · simp only [Function.update_self, Option.map_some]
        · simp only [Function.update_self, Option.map_some]
        · simp only [Function.update_self]
          omega

/-- The kernel's bytes, from `PHYSBASE` on, are those of the memory file in their
order. -/
theorem BootMem.Ready.kernelByte {b : BootMem} (h : b.Ready) {a : Nat} (hLow : PHYSBASE.toNat ≤ a)
    (hHigh : a < PHYSBASE.toNat + PHYSMEM) :
    b.kernelByte a = some (physmemPath, a - PHYSBASE.toNat) := by
  obtain ⟨as, prot, hSpace⟩ := h.mapped
  obtain ⟨d, hFd, hPath⟩ := Option.map_eq_some_iff.mp h.kernelFile
  rw [BootMem.kernelByte, fileByteOf, hSpace, AddressSpace.mmap_fileByte as prot b.memfd
    ⟨by decide, by decide⟩ (by decide) hLow hHigh, Option.bind_some, hFd, Option.map_some, hPath,
    Nat.zero_add]

/-- A byte of a mapping of a user thread is that of the memory file. -/
theorem BootMem.Ready.threadByte {b : BootMem} (h : b.Ready) {u : UserSide} {a off : Nat}
    (hByte : u.space.fileByte a = some (b.memfd, off)) :
    b.threadByte u a = some (physmemPath, off) := by
  obtain ⟨d, hFd, hPath⟩ := Option.map_eq_some_iff.mp h.threadFile
  rw [BootMem.threadByte, fileByteOf, hByte, Option.bind_some, hFd, Option.map_some, hPath]

end Glendum
