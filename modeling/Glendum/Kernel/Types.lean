import Glendum.Lib.Memory

/-!
# Glendum — kernel data

The kernel structures that the page layer (`umpage.c`) and the user-thread
layer (`uthread.c`) share, under the source's names. `Page`, `Pte`, `Segment`,
`Image` and the segment types are declared in the port headers of the original
kernel; only the fields that the modelled functions use are kept, pointers to
pages are indices into `palloc.pages`, and pointers to images are numbers. The
links of a `Page` (`next`, `prev` and `hash`) are kept with the lists they thread,
in `Palloc`.

A `Pte` slot holds a page or, when `onswap` is true of it, a swap address.
-/

namespace Glendum

open Machine

/-! ## Constants of `mem.h`, `dat.h` and `uthread.h` -/

def BY2PG : Nat := 4096
def PGSHIFT : Nat := 12
def PTEMAPMEM : Nat := 1024 * 1024
def PTEPERTAB : Nat := PTEMAPMEM / BY2PG
def MAXMACH : Nat := 8
def NCOLOR : Nat := 1
def UTZERO : Word := 0x1000
def UPSTKSZ : Nat := 128 * 1024
def MINUTHREAD : Nat := 2

/-- Where the host program maps the memory file for the kernel; it maps nothing below. -/
def PHYSBASE : Word := 0x1000

/-! ## Pages, page tables, segments, processes -/

/-- Index of a page in `palloc.pages`. -/
abbrev PageId := Nat

abbrev ImageId := Nat

/-- The cache control states that the page layer sets. -/
inductive CacheCtl
  | noflush | newcol | txtflush
deriving DecidableEq

structure Page where
  pa       : Word
  va       : Word := 0
  daddr    : Word := 0
  ref      : Nat := 0
  modref   : Nat := 0
  color    : Nat := 0
  cachectl : List CacheCtl := List.replicate MAXMACH .noflush
  image    : Option ImageId := none
deriving DecidableEq

inductive PageEntry
  | page (p : PageId)
  | swap (slot : Nat)
deriving DecidableEq

def onswap : Option PageEntry → Bool
  | some (.swap _) => true
  | _ => false

/-- A table of `PTEPERTAB` slots; `first` and `last` are the slots that
`pte->first` and `pte->last` point to. -/
structure Pte where
  pages : Vector (Option PageEntry) PTEPERTAB
  first : Nat
  last  : Nat
deriving DecidableEq

/-- The values of `s->type & SG_TYPE`. -/
inductive SegType
  | text | data | bss | stack | shared | physical
deriving DecidableEq

/-- `map` has `mapsize` entries. -/
structure Segment where
  type : SegType
  map  : List (Option Pte)

/-- `seg` has `NSEG` entries; `uthr` is `PMMU.uthr`. -/
structure Proc where
  pid    : Nat
  seg    : List (Option Segment)
  newtlb : Bool := false
  uthr   : Option Nat := none

/-! ## User threads -/

inductive UState
  | idle | running | remapping | syscall
deriving DecidableEq

/-- `proc` is the index of the bound process. -/
structure Uthread where
  upid      : Int
  proc      : Option Nat := none
  uthridx   : Nat := 0
  hsyscalls : Int := 0
  mmeax     : Word := 0
  mmeip     : Word := 0
  mmesp     : Word := 0
  state     : UState := .idle
deriving DecidableEq

/-- How a run of kernel code can end other than by returning. -/
inductive Fault
  | nilDeref
  | panic (msg : String)
  /-- a swap address used as a page -/
  | swapEntry
  /-- a loop over a list did not come to its end -/
  | endless
deriving DecidableEq

end Glendum
