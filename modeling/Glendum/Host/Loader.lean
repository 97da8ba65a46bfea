import Glendum.Host.Link

/-!
# Glendum — the loader of the kernel image

`main` of `umhost.c`, from the check of its arguments to the jump to the entry
point. The host answers each of its calls: a `read` fails or gives some of the
bytes that were asked for, and the other calls fail or succeed. Variables that
`main` does not initialise have some value.

`main` is cut into stages; a stage ends with its result, or the process with an
exit status or by a fault. A fault also is to map memory over the host program or
to patch it, and to need more stack than there is: what the host program does when
its own memory is gone depends on its compiler, and is not followed any further.
-/

namespace Glendum

open Machine

/-! ## Headers -/

def I_MAGIC : Word := 491

def MULTIBOOT_HEADER_MAGIC : Word := 0x1BADB002

/-- The 32-bit words of a buffer, in both byte orders. -/
def beAt (buf : Nat → Byte) (i : Nat) : Word :=
  Memory.word32 (buf (i + 3)) (buf (i + 2)) (buf (i + 1)) (buf i)

def leAt (buf : Nat → Byte) (i : Nat) : Word :=
  Memory.word32 (buf i) (buf (i + 1)) (buf (i + 2)) (buf (i + 3))

/-- The fields of `struct Exec` that `main` reads, in the byte order of the host. -/
structure Exec where
  magic : Word
  text  : Word
  data  : Word
  bss   : Word
  syms  : Word
  entry : Word
deriving DecidableEq

def Exec.of (buf : Nat → Byte) : Exec where
  magic := beAt buf 0
  text := beAt buf 4
  data := beAt buf 8
  bss := beAt buf 12
  syms := beAt buf 16
  entry := beAt buf 20

/-- The fields of the multiboot header that `main` uses. -/
structure Multiboot where
  magic     : Word
  flags     : Word
  checksum  : Word
  load_addr : Word
deriving DecidableEq

def Multiboot.of (buf : Nat → Byte) : Multiboot where
  magic := leAt buf 0
  flags := leAt buf 4
  checksum := leAt buf 8
  load_addr := leAt buf 16

def sizeofExec : Nat := 32

def sizeofMultiboot : Nat := 32

/-- `stextp` and `sdatap`. -/
def pageRound (size : Word) : Word := size + (4096 - size) % 4096

/-! ## The host -/

/-- The host's answer to a `read`. -/
inductive Got
  | fail
  | upTo (n : Nat)
deriving DecidableEq

/-- What arrives in the buffer of a `read` of `n` bytes at `pos`. -/
def Got.bytes (g : Got) (file : List Byte) (pos n : Nat) : List Byte :=
  match g with
  | .fail => []
  | .upTo m => (file.drop pos).take (min m n)

def Got.rc (g : Got) (file : List Byte) (pos n : Nat) : Int :=
  match g with
  | .fail => -1
  | .upTo _ => (g.bytes file pos n).length

/-- `rc < size` with `size` of an unsigned type. -/
def belowSizeof (rc : Int) (size : Nat) : Bool := (BitVec.ofInt 32 rc).toNat < size

/-- A buffer after a `read` into it. -/
def overlay (got : List Byte) (was : Nat → Byte) : Nat → Byte := fun i => got.getD i (was i)

/-- The result of an `lseek` and the position after it. -/
def seekTo (ok : Bool) (target : Int) (pos : Nat) : Int × Nat :=
  if ok = true ∧ 0 ≤ target then (target, target.toNat) else (-1, pos)

/-- The answers to the calls of `main`, in its order; `scanRead i` is for the turn `i`
of the loop that looks for the multiboot header. -/
structure Calls where
  opened      : Bool
  hdrRead     : Got
  scanRead    : Nat → Got
  scanSeek    : Bool
  mbSeek      : Bool
  mbRead      : Got
  mapLoad     : Bool
  mapText     : Bool
  mapData     : Bool
  textSeek    : Bool
  textRead    : Got
  linkTell    : Bool
  linkSeek    : Bool
  linkRead    : Got
  linkRestore : Bool
  protect     : Bool
  dataRead    : Got

/-- What a run of `main` depends on. The last two groups are the host program: where it
is, with its image from `phys` to `hostEnd`, its stack in use (the frames of the calls of
`main` included) from `stackLow` to `stackEnd` and `stack` bytes that it can grow by,
and its heap and libraries in `others`; and its memory, with the bytes that its variables
and the stack below `main` happen to have. -/
structure Host where
  argc       : Nat
  file       : List Byte
  calls      : Calls
  addr       : HostAddr
  phys       : Word
  hostEnd    : Word
  stackLow   : Word
  stackEnd   : Word
  stack      : Nat
  stackOrder : stackLow.toNat ≤ stackEnd.toNat
  stackRoom  : stack ≤ stackLow.toNat
  others     : List (Word × Word)
  mem        : Memory
  access     : Access
  hdrWas     : Nat → Byte
  mbhdrWas   : Nat → Byte
  symtWas    : Nat → Byte
  above      : List Byte

/-- How a process ends that does not jump to the kernel. -/
inductive Stop
  | exit (status : Int)
  | fault

/-! ## The headers are read -/

def openFile (h : Host) : Except Stop Unit :=
  if h.argc < 2 then .error (.exit (-1))
  else if h.calls.opened = false then .error (.exit (-2))
  else .ok ()

/-- The header, and the position after it. -/
def readHeader (h : Host) : Except Stop (Exec × Nat) :=
  let got := h.calls.hdrRead.bytes h.file 0 sizeofExec
  if belowSizeof (h.calls.hdrRead.rc h.file 0 sizeofExec) sizeofExec = true then
    .error (.exit (-3))
  else
    let hdr := Exec.of (overlay got h.hdrWas)
    if hdr.magic ≠ I_MAGIC then .error (.exit (-4)) else .ok (hdr, got.length)

/-- The loop that looks for the magic of the multiboot header, with `n` turns left;
it answers with the position after the magic. -/
def findMagic (h : Host) : Nat → Nat → (Nat → Byte) → Except Stop Nat
  | 0, _, _ => .error (.exit (-11))
  | n + 1, pos, magbuf =>
    let g := h.calls.scanRead (255 - n)
    if g.rc h.file pos 4 < 0 then .error (.exit (-10))
    else
      let got := g.bytes h.file pos 4
      -- a read that is cut short leaves the rest of the word of the turn before
      let magbuf := overlay got magbuf
      if leAt magbuf 0 = MULTIBOOT_HEADER_MAGIC then .ok (pos + got.length)
      else findMagic h n (pos + got.length) magbuf

/-- Back by the size of the magic, and there once more. -/
def seekMagic (h : Host) (pos : Nat) : Except Stop Nat :=
  let (mbpos, pos) := seekTo h.calls.scanSeek (pos - 4) pos
  let (rc, pos) := seekTo h.calls.mbSeek mbpos pos
  if rc ≠ mbpos then .error (.exit (-12)) else .ok pos

def readMultiboot (h : Host) (pos : Nat) : Except Stop Multiboot :=
  -- a failure is above every size when it is compared as an unsigned number
  let got := h.calls.mbRead.bytes h.file pos sizeofMultiboot
  if belowSizeof (h.calls.mbRead.rc h.file pos sizeofMultiboot) sizeofMultiboot = true then
    .error (.exit (-13))
  else
    let mbhdr := Multiboot.of (overlay got h.mbhdrWas)
    if mbhdr.magic + mbhdr.flags + mbhdr.checksum ≠ 0 then .error (.exit (-14))
    else if mbhdr.flags &&& 0x10000 = 0 then .error (.exit (-15))
    else if h.hostEnd > mbhdr.load_addr then .error (.exit (-16))
    else .ok mbhdr

/-! ## The memory is mapped -/

/-- The process's memory, what of it can be used, and how many bytes are free below
the stack. -/
structure Space where
  mem    : Memory
  access : Access
  room   : Nat

def Host.space (h : Host) : Space where
  mem := h.mem
  access := h.access
  room := h.stack

/-- Where the host program is, with the first address behind each range. -/
def Host.places (h : Host) : List (Word × Word) :=
  (h.phys, h.hostEnd) :: (h.stackLow, h.stackEnd) :: h.others

/-- Some byte of `[addr, addr + len)` is of the host program. -/
def hitsHost (h : Host) (addr : Word) (len : Nat) : Bool :=
  h.places.any fun r => addr.toNat < r.2.toNat && r.1.toNat < addr.toNat + len

/-- An anonymous mapping at a fixed address. It fails when the host says so, for
an address inside a page, for no bytes at all, and at the top of the address space. -/
def mapFixed (h : Host) (ok : Bool) (addr : Word) (len : Nat) (s : Space) : Except Stop Space :=
  if ok = false ∨ addr.toNat % 4096 ≠ 0 ∨ len = 0 ∨ 2 ^ 32 ≤ addr.toNat + len then
    .error (.exit (-5))
  else if hitsHost h addr len = true then .error .fault
  else
    let inside (x : Word) : Bool := (x - addr).toNat < len
    .ok {
      mem := fun x => if inside x = true then 0 else s.mem x
      access := {
        readable := fun x => inside x || s.access.readable x
        writable := fun x => inside x || s.access.writable x }
      -- a region below the stack ends the room there
      room := if addr.toNat + len ≤ h.stackLow.toNat then
          min s.room (h.stackLow.toNat - (addr.toNat + len))
        else s.room }

/-- The loader area, the text and the data. -/
def mapAll (h : Host) (hdr : Exec) (mb : Multiboot) : Except Stop Space := do
  let s ← mapFixed h h.calls.mapLoad (mb.load_addr - 0x100000) 0x100000 h.space
  let s ← mapFixed h h.calls.mapText mb.load_addr (pageRound hdr.text).toNat s
  mapFixed h h.calls.mapData (mb.load_addr + pageRound hdr.text)
    (pageRound (hdr.data + hdr.bss)).toNat s

/-! ## The image is read -/

/-- The memory with the text, and the position after it. -/
def readText (h : Host) (hdr : Exec) (mb : Multiboot) (mem : Memory) (pos : Nat) :
    Except Stop (Memory × Nat) :=
  let (rc, pos) := seekTo h.calls.textSeek sizeofExec pos
  if rc ≠ sizeofExec then .error (.exit (-6))
  else
    let got := h.calls.textRead.bytes h.file pos hdr.text.toNat
    -- only a failure is looked for: a count below the size of the text is accepted
    if h.calls.textRead.rc h.file pos hdr.text.toNat = -1 then .error (.exit (-7))
    else .ok (mem.write mb.load_addr got, pos + got.length)

/-- The place of `symt`, which is an array on the stack. -/
def symtAt (h : Host) (hdr : Exec) : Word := h.stackLow - hdr.syms

/-- The table as it is once it was read. -/
def symtAfter (h : Host) (hdr : Exec) (got : List Byte) : List Byte :=
  (List.range hdr.syms.toNat).map (overlay got h.symtWas)

/-- What `patchcode` can read, with the table, and what it can write to without harm: not
the host program, nor the table. -/
def patchable (h : Host) (hdr : Exec) (acc : Access) : Access :=
  let onTable (x : Word) : Bool := (x - symtAt h hdr).toNat < hdr.syms.toNat
  { readable := fun x => acc.readable x || onTable x
    writable := fun x => acc.writable x && !hitsHost h x 1 && !onTable x }

/-- A table that was not read as a whole is used as it is. -/
def hostlink (h : Host) (hdr : Exec) (s : Space) (pos : Nat) : Except Stop (Linking × Nat) :=
  let savepos := (seekTo h.calls.linkTell pos pos).1
  if s.room < hdr.syms.toNat then .error .fault
  else
    let offsyms := hdr.text + hdr.data + BitVec.ofNat 32 sizeofExec
    let (rc, pos) := seekTo h.calls.linkSeek offsyms.toInt pos
    if rc = -1 then .error (.exit (-40))
    else
      let got := h.calls.linkRead.bytes h.file pos hdr.syms.toNat
      let pos := pos + got.length
      let symt := symtAfter h hdr got
      match linkTable (patchable h hdr s.access) h.addr (symt ++ h.above) hdr.syms.toNat
          (s.mem.write (symtAt h hdr) symt) with
      | none => .error .fault
      -- the seek back is not checked: the position stays behind the table when it fails
      | some (_, st) => .ok (st, (seekTo h.calls.linkRestore savepos pos).2)

def readData (h : Host) (hdr : Exec) (mb : Multiboot) (mem : Memory) (pos : Nat) :
    Except Stop Memory :=
  if h.calls.protect = false then .error (.exit (-15))
  else if h.calls.dataRead.rc h.file pos hdr.data.toNat = -1 then .error (.exit (-8))
  else
    .ok (mem.write (mb.load_addr + pageRound hdr.text)
      (h.calls.dataRead.bytes h.file pos hdr.data.toNat))

/-! ## main -/

/-- The jump to the kernel: the two headers as `main` has them, and the memory with the
slots that were linked. -/
structure Jump where
  hdr   : Exec
  mbhdr : Multiboot
  entry : Word
  mem   : Memory
  slots : List Word

def main (h : Host) : Except Stop Jump := do
  openFile h
  let (hdr, pos) ← readHeader h
  let pos ← findMagic h 256 pos fun _ => 0
  let pos ← seekMagic h pos
  let mbhdr ← readMultiboot h pos
  let s ← mapAll h hdr mbhdr
  let (mem, pos) ← readText h hdr mbhdr s.mem pos
  let (st, pos) ← hostlink h hdr { s with mem } pos
  let mem ← readData h hdr mbhdr st.text pos
  .ok { hdr, mbhdr, entry := hdr.entry, mem, slots := st.slots }

end Glendum
