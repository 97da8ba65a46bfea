import Glendum.Arch.Mach
import Glendum.Conf.Isa
import Glendum.Kernel.Page
import Glendum.Lib.Exact

/-!
# Glendum — how much memory there is

`meminit` asks the host for its pages, and `confinit` divides them between the kernel
and the processes. All of it is unsigned arithmetic of 32 bits; every product and
every difference of `confinit` goes through `mul` and `sub`, which take note of what
wraps.

`meminit` writes the page counts into `conf.npage`, `conf.upages` and
`palloc.mem[0]`. `confinit` starts over from `conf.mem`, which nothing fills.

* `confinit_empty` — what `confinit` makes of empty banks, whatever `conf.npage` was;
* `confinit_sized` — with the banks filled it divides the pages without wrapping, if
  the permanent tables fit into the kernel's share;
* `memory_sizing_never` — so after `meminit` and `confinit` the sizes are never those
  of the host's memory, and the size of the kernel's pool has wrapped;
* `terminal_without_pages` — the start of a terminal on 256 MB.
-/

namespace Glendum

open Machine Exact Exact.Calc

/-! ## The data -/

def MB : Word := 0x100000
def KSTACK : Word := 4096

/-- `((ulong)-KZERO)/BY2PG`, the pages from `KZERO` to the end of virtual memory. -/
def kernelPages : Word := -BitVec.ofNat 32 KZERO / 4096

/-- `sizeof(Page)`, `sizeof(Proc)` and `sizeof(Image)`. -/
structure Sizes where
  Page      : Word
  Proc      : Word
  Image     : Word
  Page_pos  : 0 < Page.toNat
  Proc_pos  : 0 < Proc.toNat
  Image_pos : 0 < Image.toNat

structure Confmem where
  base   : Word := 0
  npage  : Word := 0
  kbase  : Word := 0
  klimit : Word := 0

structure Conf where
  nproc   : Word := 0
  mem     : List Confmem := List.replicate 4 {}
  npage   : Word := 0
  upages  : Word := 0
  nimage  : Word := 0
  nswap   : Word := 0
  nswppo  : Word := 0
  ialloc  : Word := 0
  ustktop : Word := 0

/-- The pages of all banks. -/
def Conf.banks (c : Conf) : Word := c.mem.foldl (fun n m => n + m.npage) 0

/-- The two limits of `mainmem` and `imagmem`. -/
structure Pool where
  maxsize  : Word
  minarena : Word

/-- What `meminit` and `confinit` write: `conf`, the first bank of `palloc.mem`, and
the pools. -/
structure Sizing where
  conf    : Conf := {}
  bank    : Pallocmem := { base := 0, npage := 0 }
  mainmem : Pool
  imagmem : Pool

/-! ## meminit -/

/-- What the host tells: its `NPAGE`, the address at which it has mapped them, and the
top of the user stack. -/
structure HostPages where
  npage   : Word
  phmem   : Word
  ustktop : Word

/-- `host_confmem` -/
def HostPages.confmem (h : HostPages) : Word × Word := (h.npage, h.npage)

/-- `host_memsize`; `bootMem` has how the memory gets there. -/
def HostPages.hostmem (h : HostPages) : Word × Word := (h.phmem, h.npage)

def meminit (h : HostPages) (s : Sizing) : Sizing :=
  let conf := { s.conf with npage := h.confmem.1, upages := h.confmem.2, ustktop := h.ustktop }
  { s with conf, bank := { base := h.hostmem.1, npage := h.hostmem.2.toNat } }

/-! ## confinit -/

/-- `strtol(s, 0, 0)` -/
def strtol (s : List Byte) : Int :=
  let s := s.dropWhile isspace
  let neg := s.headD 0 = ch '-'
  let s := if s.headD 0 = ch '-' ∨ s.headD 0 = ch '+' then s.tail else s
  let r := numberBase s
  let n := readDigits r.1 0 r.2
  if neg then -(min n (2 ^ 31) : Nat) else (min n (2 ^ 31 - 1) : Nat)

/-- The share of the processes that the configuration asks for. -/
def BootConf.userpcnt (c : BootConf) : Word :=
  match c.getconfStr (ascii "*kernelpercent") with
  | some p => 100 - BitVec.ofInt 32 (strtol p)
  | none => 0

/-- `conf.nproc` -/
def numProcs (cpuserver : Bool) (npage : Word) : Calc Word := do
  let nproc := 100 + (← mul ((← mul npage 4096) / MB) 5)
  let nproc ← if cpuserver then mul nproc 3 else pure nproc
  return if nproc > 2000 then 2000 else nproc

/-- The kernel's pages and `conf.nimage` on a cpu server. -/
def cpuPages (z : Sizes) (npage nproc userpcnt : Word) : Calc (Word × Word) := do
  let userpcnt := if userpcnt.slt 10 then 70 else userpcnt
  let kpages ← sub npage ((← mul npage userpcnt) / 100)
  let enough := (64 * MB + (← mul npage z.Page)) / 4096
  if kpages > enough then
    -- room for the page pool, and for the kernel stacks
    let enough := (64 * MB + (← mul npage z.Page)) / 4096
    return (enough + (← mul nproc KSTACK) / 4096, 2000)
  else
    return (kpages, 200)

/-- The share of the processes on a terminal. -/
def terminalPcnt (npage userpcnt : Word) : Calc Word :=
  if userpcnt.slt 10 then do
    let bytes ← mul npage 4096
    return if bytes < 16 * MB then 40 else 60
  else pure userpcnt

/-- The kernel's pages on a terminal, and whether images get arenas of 4 MB. -/
def terminalPages (npage userpcnt : Word) : Calc (Word × Bool) := do
  let userpcnt ← terminalPcnt npage userpcnt
  let kpages ← sub npage ((← mul npage userpcnt) / 100)
  return (kpages, decide ((← mul npage 4096) < 16 * MB))

/-- The two policies: the kernel's pages, `conf.nimage` and `imagmem->minarena`. -/
def sharePages (z : Sizes) (cpuserver : Bool) (npage nproc userpcnt minarena : Word) :
    Calc (Word × Word × Word) :=
  if cpuserver then do
    let (kpages, nimage) ← cpuPages z npage nproc userpcnt
    return (kpages, nimage, minarena)
  else do
    let (kpages, low) ← terminalPages npage userpcnt
    return (kpages, 200, if low then 4 * 1024 * 1024 else minarena)

/-- The guess of how much is taken by the large permanent data structures. -/
def tableBytes (z : Sizes) (upages nproc nimage : Word) : Calc Word := do
  return (← mul upages z.Page) + (← mul nproc z.Proc) + (← mul nimage z.Image)

/-- The kernel can't go past the end of virtual memory. -/
def capPages (kpages : Word) : Word := if kpages > kernelPages then kernelPages else kpages

/-- What follows the choice of the kernel's pages: `conf.upages`, `conf.ialloc`, and the
bytes that are left for the kernel's pool. -/
def dividePages (z : Sizes) (npage nproc nimage kpages : Word) : Calc (Word × Word × Word) := do
  let kpages := capPages kpages
  let upages ← sub npage kpages
  let ialloc ← mul (kpages / 2) 4096
  let bytes ← mul kpages 4096
  let bytes ← sub bytes (← tableBytes z upages nproc nimage)
  return (upages, ialloc, bytes)

def confinit (z : Sizes) (cpuserver : Bool) (c : BootConf) (s : Sizing) : Calc Sizing := do
  let npage := s.conf.banks
  let nproc ← numProcs cpuserver npage
  let (kpages, nimage, minarena) ←
    sharePages z cpuserver npage nproc c.userpcnt s.imagmem.minarena
  let (upages, ialloc, bytes) ← dividePages z npage nproc nimage kpages
  return { s with
    conf := { s.conf with npage, nproc, nimage, nswap := 0, nswppo := 0, upages, ialloc }
    mainmem := { s.mainmem with maxsize := bytes }
    imagmem := { maxsize := if cpuserver then s.imagmem.maxsize else bytes, minarena } }

/-- `main` makes the one call behind the other; `conf` starts zeroed. -/
def memstart (z : Sizes) (cpuserver : Bool) (c : BootConf) (h : HostPages) (mainmem imagmem : Pool) :
    Sizing × Bool :=
  confinit z cpuserver c (meminit h { mainmem, imagmem }) true

/-- What the sizes should be for a host that has `n` pages. -/
structure Sized (n : Nat) (r : Sizing × Bool) : Prop where
  npage   : r.1.conf.npage.toNat = n
  upages  : r.1.conf.upages.toNat ≤ n
  exact   : r.2 = true
  maxsize : r.1.mainmem.maxsize.toNat ≤ n * BY2PG

/-! ## Empty banks -/

section

variable {z : Sizes} {cpuserver : Bool} {c : BootConf} {s : Sizing}
  {npage userpcnt minarena : Word} {n : Nat}

/-- The processes of a kernel without pages. -/
def fewProcs (cpuserver : Bool) : Word := if cpuserver then 300 else 100

theorem numProcs_zero : numProcs cpuserver 0 true = (fewProcs cpuserver, true) := by
  cases cpuserver <;> rfl

theorem sharePages_zero (z : Sizes) (cpuserver : Bool) (userpcnt minarena nproc : Word) : ∃ arena,
    sharePages z cpuserver 0 nproc userpcnt minarena true = ((0, 200, arena), true) := by
  cases cpuserver with
  | true =>
    refine ⟨minarena, ?_⟩
    simp [sharePages, cpuPages, mul, sub, MB]
  | false =>
    refine ⟨4 * 1024 * 1024, ?_⟩
    have hPcnt : (terminalPcnt 0#32 userpcnt true).2 = true := by
      unfold terminalPcnt
      split <;> simp [mul]
    simp [sharePages, terminalPages, mul, sub, MB, hPcnt]

/-- The tables take some bytes, if no product has wrapped: their sum is a multiple
of 100, which the size of the address space is not. -/
theorem tableBytes_zero (z : Sizes) (cpuserver : Bool) :
    let r := tableBytes z 0 (fewProcs cpuserver) 200 true
    r.1 = fewProcs cpuserver * z.Proc + 200 * z.Image ∧ (r.2 = true → 0 < r.1.toNat) := by
  have hNote : (tableBytes z 0 (fewProcs cpuserver) 200 true).2 = true →
      (fewProcs cpuserver).toNat * z.Proc.toNat < 2 ^ 32 ∧ 200 * z.Image.toNat < 2 ^ 32 := by
    simp [tableBytes, mul]
  have hValue : (tableBytes z 0 (fewProcs cpuserver) 200 true).1 =
      fewProcs cpuserver * z.Proc + 200 * z.Image := by
    simp [tableBytes, mul]
  refine ⟨hValue, fun hExact => ?_⟩
  obtain ⟨hProc, hImage⟩ := hNote hExact
  have hPos := z.Proc_pos
  rw [hValue, BitVec.toNat_add, BitVec.toNat_mul_of_lt hProc,
    BitVec.toNat_mul_of_lt (show (200 : Word).toNat * _ < _ from hImage)]
  change 0 < (_ + 200 * _) % 2 ^ 32
  -- 300 or 100 processes and 200 images
  cases cpuserver with
  | true =>
    change 300 * _ < 2 ^ 32 at hProc
    change 0 < (300 * _ + _) % 2 ^ 32
    omega
  | false =>
    change 100 * _ < 2 ^ 32 at hProc
    change 0 < (100 * _ + _) % 2 ^ 32
    omega

theorem dividePages_zero (z : Sizes) (cpuserver : Bool) :
    let r := dividePages z 0 (fewProcs cpuserver) 200 0 true
    r.1.1 = 0 ∧ r.1.2.2 = -(fewProcs cpuserver * z.Proc + 200 * z.Image) ∧ r.2 = false := by
  obtain ⟨hValue, hPos⟩ := tableBytes_zero z cpuserver
  -- from no bytes the tables are subtracted
  have hRest : dividePages z 0 (fewProcs cpuserver) 200 0 true =
      let t := tableBytes z 0 (fewProcs cpuserver) 200 true
      ((0, 0, (sub 0 t.1 t.2).1), (sub 0 t.1 t.2).2) := rfl
  rw [hRest]
  refine ⟨rfl, ?_, ?_⟩
  · change 0 - (tableBytes z 0 (fewProcs cpuserver) 200 true).1 = _
    rw [hValue]
    exact BitVec.zero_sub _
  · show (sub 0 _ (tableBytes z 0 (fewProcs cpuserver) 200 true).2).2 = false
    cases hExact : (tableBytes z 0 (fewProcs cpuserver) 200 true).2 with
    | false =>
      -- a product of the tables has wrapped before
      rw [sub_false]
    | true =>
      have hSome : (0 : Word).toNat < (tableBytes z 0 (fewProcs cpuserver) 200 true).1.toNat :=
        hPos hExact
      rw [sub_of_lt true hSome]

/-- `confinit` forgets `conf.npage`. Without banks the kernel has no pages, and its
tables are subtracted from them. -/
theorem confinit_empty (z : Sizes) (cpuserver : Bool) (c : BootConf)
    (hEmpty : s.conf.banks = 0) :
    let r := confinit z cpuserver c s true
    r.1.conf.npage = 0 ∧ r.1.conf.upages = 0 ∧
      r.1.mainmem.maxsize = -(fewProcs cpuserver * z.Proc + 200 * z.Image) ∧ r.2 = false := by
  obtain ⟨arena, hShare⟩ := sharePages_zero z cpuserver c.userpcnt s.imagmem.minarena
    (fewProcs cpuserver)
  obtain ⟨hUser, hBytes, hNote⟩ := dividePages_zero z cpuserver
  simp only [confinit, bind_apply, pure_apply, hEmpty, numProcs_zero, hShare]
  exact ⟨trivial, hUser, hBytes, hNote⟩

/-! ## Filled banks -/

/-- The last step of all: no more than 2000. -/
theorem cap_le (v : Word) : (if v > 2000 then 2000 else v).toNat ≤ 2000 ∧
    (if v > 2000 then 2000 else v).toNat ≤ v.toNat := by
  by_cases hv : v > 2000
  · rw [if_pos hv]
    exact ⟨le_rfl, (BitVec.lt_def.mp hv).le⟩
  · rw [if_neg hv]
    exact ⟨BitVec.le_def.mp (BitVec.not_lt.mp hv), le_rfl⟩

/-- The number of processes, and what a cpu server has at most. -/
theorem numProcs_spec (cpuserver : Bool) (hFits : npage.toNat * BY2PG < 2 ^ 32) :
    ∃ nproc, numProcs cpuserver npage true = (nproc, true) ∧ nproc.toNat ≤ 2000 ∧
      nproc.toNat ≤ 3 * (100 + npage.toNat / 256 * 5) := by
  have hBytes : npage.toNat * (4096 : Word).toNat < 2 ^ 32 := hFits
  obtain ⟨hMul, hMega⟩ := mul_of_lt true hBytes
  have hQuot : (npage * 4096 / MB).toNat = npage.toNat / 256 := by
    rw [BitVec.toNat_udiv, hMega]
    change npage.toNat * 4096 / 0x100000 = _
    omega
  -- the bytes are less than four gigabytes
  have hSmall : npage.toNat / 256 < 4096 := by
    change npage.toNat * 4096 < 2 ^ 32 at hBytes
    omega
  have hFive : (npage * 4096 / MB).toNat * (5 : Word).toNat < 2 ^ 32 := by
    change _ * 5 < _
    rw [hQuot]
    omega
  obtain ⟨hMul5, hProcs⟩ := mul_of_lt true hFive
  rw [hQuot] at hProcs
  change _ = npage.toNat / 256 * 5 at hProcs
  have hSum : (100 + npage * 4096 / MB * 5).toNat = 100 + npage.toNat / 256 * 5 := by
    rw [BitVec.toNat_add, hProcs]
    change (100 + _) % _ = _
    omega
  -- a cpu server has three times as many
  cases cpuserver with
  | true =>
    have hThree : (100 + npage * 4096 / MB * 5).toNat * (3 : Word).toNat < 2 ^ 32 := by
      change _ * 3 < _
      rw [hSum]
      omega
    obtain ⟨hMul3, hServer⟩ := mul_of_lt true hThree
    refine ⟨_, ?_, (cap_le ((100 + npage * 4096 / MB * 5) * 3)).1, (cap_le _).2.trans ?_⟩
    · simp only [numProcs, bind_apply, pure_apply, hMul, hMul5, if_true, hMul3]
    · rw [hServer, hSum]
      change _ * 3 ≤ _
      omega
  | false =>
    refine ⟨_, ?_, (cap_le (100 + npage * 4096 / MB * 5)).1, (cap_le _).2.trans ?_⟩
    · simp only [numProcs, bind_apply, pure_apply, hMul, hMul5, Bool.false_eq_true, if_false]
    · rw [hSum]
      omega

/-- The policies never ask for more than 99 percent for the processes, nor for less
than 10. -/
theorem pcnt_range {u l : Word} (hLow : 10 ≤ l.toNat) (hHigh : l.toNat ≤ 99) (hAsked : u.toNat ≤ 99) :
    10 ≤ (if u.slt 10 then l else u).toNat ∧ (if u.slt 10 then l else u).toNat ≤ 99 := by
  have hInt : u.toInt = u.toNat := BitVec.toInt_eq_toNat_of_lt (by omega)
  by_cases hLess : u.slt 10
  · rw [if_pos hLess]
    exact ⟨hLow, hHigh⟩
  · rw [if_neg hLess]
    refine ⟨?_, hAsked⟩
    have hNot : ¬ u.toInt < (10 : Word).toInt := fun hLt => hLess (BitVec.slt_iff_toInt_lt.mpr hLt)
    rw [hInt] at hNot
    change ¬ (u.toNat : Int) < 10 at hNot
    omega

/-- The percentage of the processes taken off, they keep at least a tenth. -/
theorem share_spec (hFits : npage.toNat * BY2PG < 2 ^ 32) {u : Word} (hLow : 10 ≤ u.toNat)
    (hHigh : u.toNat ≤ 99) (ok : Bool) :
    mul npage u ok = (npage * u, ok) ∧
      sub npage (npage * u / 100) ok = (npage - npage * u / 100, ok) ∧
      (npage - npage * u / 100).toNat + npage.toNat / 10 ≤ npage.toNat := by
  have hPages : npage.toNat < 2 ^ 20 := by
    change _ * 4096 < _ at hFits
    omega
  -- the product is far from wrapping: at most 2^20 pages, and 99 percent
  have hMost : npage.toNat * u.toNat ≤ npage.toNat * 99 := Nat.mul_le_mul_left _ hHigh
  have hLeast : npage.toNat * 10 ≤ npage.toNat * u.toNat := Nat.mul_le_mul_left _ hLow
  obtain ⟨hMul, hProduct⟩ := mul_of_lt (a := npage) (b := u) ok (by omega)
  have hQuot : (npage * u / 100).toNat = npage.toNat * u.toNat / 100 := by
    rw [BitVec.toNat_udiv, hProduct]
    rfl
  obtain ⟨hSub, hRest⟩ := sub_of_le (a := npage) (b := npage * u / 100) ok (by omega)
  refine ⟨hMul, hSub, ?_⟩
  rw [hRest, hQuot]
  omega

/-- The kernel of a cpu server takes no more than there is, once it has room for the
page pool. -/
theorem cpuPages_spec {nproc : Word} (hFits : npage.toNat * BY2PG < 2 ^ 32) (hAsked : userpcnt.toNat ≤ 99)
    (hPage : z.Page.toNat ≤ 2048) (hProcs : nproc.toNat ≤ 2000)
    (hFew : nproc.toNat ≤ 3 * (100 + npage.toNat / 256 * 5)) :
    ∃ kpages nimage, cpuPages z npage nproc userpcnt true = ((kpages, nimage), true) ∧
      kpages.toNat ≤ npage.toNat := by
  obtain ⟨hLow, hHigh⟩ := pcnt_range (u := userpcnt) (l := 70) (by decide) (by decide) hAsked
  obtain ⟨hMul, hSub, hShare⟩ := share_spec hFits hLow hHigh true
  have hPages : npage.toNat < 2 ^ 20 := by
    change _ * 4096 < _ at hFits
    omega
  have hMost : npage.toNat * z.Page.toNat ≤ npage.toNat * 2048 := Nat.mul_le_mul_left _ hPage
  obtain ⟨hMulPage, hTable⟩ := mul_of_lt (a := npage) (b := z.Page) true (by omega)
  -- 64 megabytes are 16384 pages
  have hEnough : ((64 * MB + npage * z.Page) / 4096).toNat = 16384 + npage.toNat * z.Page.toNat / 4096 := by
    have hSum : (64 * MB + npage * z.Page).toNat = 0x4000000 + npage.toNat * z.Page.toNat := by
      rw [BitVec.toNat_add, hTable]
      change (0x4000000 + _) % _ = _
      omega
    rw [BitVec.toNat_udiv, hSum]
    change _ / 4096 = _
    omega
  simp only [cpuPages, bind_apply, hMul, hSub, hMulPage]
  by_cases hBig : npage - npage * (if userpcnt.slt 10 then 70 else userpcnt) / 100 >
      (64 * MB + npage * z.Page) / 4096
  · -- room for the page pool, and the kernel stacks on top
    have hStack : nproc.toNat * KSTACK.toNat < 2 ^ 32 := by
      change _ * 4096 < _
      omega
    obtain ⟨hMulStack, hStacks⟩ := mul_of_lt true hStack
    have hPlus : (nproc * KSTACK / 4096).toNat = nproc.toNat := by
      rw [BitVec.toNat_udiv, hStacks]
      change _ * 4096 / 4096 = _
      omega
    have hAbove := BitVec.lt_def.mp hBig
    rw [hEnough] at hAbove
    simp only [if_pos hBig, bind_apply, pure_apply, hMulPage, hMulStack]
    refine ⟨_, _, rfl, ?_⟩
    rw [BitVec.toNat_add, hEnough, hPlus, Nat.mod_eq_of_lt (by omega)]
    omega
  · simp only [if_neg hBig, pure_apply]
    exact ⟨_, _, rfl, by omega⟩

theorem terminalPages_spec (hFits : npage.toNat * BY2PG < 2 ^ 32) (hAsked : userpcnt.toNat ≤ 99) :
    ∃ kpages low, terminalPages npage userpcnt true = ((kpages, low), true) ∧
      kpages.toNat ≤ npage.toNat := by
  obtain ⟨hMulBytes, -⟩ := mul_of_lt (a := npage) (b := (4096 : Word)) true hFits
  -- 40 percent of a small memory, and 60 of a large one
  have hDefault : 10 ≤ (if npage * 4096 < 16 * MB then (40 : Word) else 60).toNat ∧
      (if npage * 4096 < 16 * MB then (40 : Word) else 60).toNat ≤ 99 := by
    split <;> decide
  obtain ⟨hLow, hHigh⟩ := pcnt_range hDefault.1 hDefault.2 hAsked
  obtain ⟨hMul, hSub, hShare⟩ := share_spec hFits hLow hHigh true
  have hPcnt : terminalPcnt npage userpcnt true =
      (if userpcnt.slt 10 then (if npage * 4096 < 16 * MB then 40 else 60) else userpcnt, true) := by
    unfold terminalPcnt
    split
    · simp only [bind_apply, pure_apply, hMulBytes]
    · rfl
  simp only [terminalPages, bind_apply, pure_apply, hPcnt, hMul, hSub, hMulBytes]
  exact ⟨_, _, rfl, by omega⟩

theorem sharePages_spec (z : Sizes) (cpuserver : Bool) (minarena : Word) {nproc : Word}
    (hFits : npage.toNat * BY2PG < 2 ^ 32)
    (hAsked : userpcnt.toNat ≤ 99) (hPage : z.Page.toNat ≤ 2048) (hProcs : nproc.toNat ≤ 2000)
    (hFew : nproc.toNat ≤ 3 * (100 + npage.toNat / 256 * 5)) :
    ∃ kpages nimage arena, sharePages z cpuserver npage nproc userpcnt minarena true =
      ((kpages, nimage, arena), true) ∧ kpages.toNat ≤ npage.toNat := by
  cases cpuserver with
  | true =>
    obtain ⟨kpages, nimage, hRun, hMost⟩ := cpuPages_spec (z := z) hFits hAsked hPage hProcs hFew
    refine ⟨kpages, nimage, minarena, ?_, hMost⟩
    simp only [sharePages, if_true, bind_apply, pure_apply, hRun]
  | false =>
    obtain ⟨kpages, low, hRun, hMost⟩ := terminalPages_spec hFits hAsked
    refine ⟨kpages, 200, if low then 4 * 1024 * 1024 else minarena, ?_, hMost⟩
    simp only [sharePages, Bool.false_eq_true, if_false, bind_apply, pure_apply, hRun]

/-- The bytes of the permanent tables, if they fit into the address space. -/
theorem tableBytes_spec (z : Sizes) (upages nproc nimage : Word)
    (hFit : upages.toNat * z.Page.toNat + nproc.toNat * z.Proc.toNat + nimage.toNat * z.Image.toNat
      < 2 ^ 32) :
    ∃ v, tableBytes z upages nproc nimage true = (v, true) ∧ v.toNat =
      upages.toNat * z.Page.toNat + nproc.toNat * z.Proc.toNat + nimage.toNat * z.Image.toNat := by
  obtain ⟨hMulPage, hPages⟩ := mul_of_lt (a := upages) (b := z.Page) true (by omega)
  obtain ⟨hMulProc, hProcs⟩ := mul_of_lt (a := nproc) (b := z.Proc) true (by omega)
  obtain ⟨hMulImage, hImages⟩ := mul_of_lt (a := nimage) (b := z.Image) true (by omega)
  refine ⟨upages * z.Page + nproc * z.Proc + nimage * z.Image, ?_, ?_⟩
  · simp only [tableBytes, bind_apply, pure_apply, hMulPage, hMulProc, hMulImage]
  · rw [BitVec.toNat_add, BitVec.toNat_add, hPages, hProcs, hImages]
    omega

theorem capPages_le (kpages : Word) : (capPages kpages).toNat ≤ kpages.toNat := by
  by_cases hPast : kpages > kernelPages
  · rw [capPages, if_pos hPast]
    exact (BitVec.lt_def.mp hPast).le
  · rw [capPages, if_neg hPast]

/-- The division of the pages, for a share that the memory has. The tables have to fit
into the share as it is in the end. -/
theorem dividePages_spec (z : Sizes) (nproc nimage : Word) {kpages : Word}
    (hFits : npage.toNat * BY2PG < 2 ^ 32) (hShare : kpages.toNat ≤ npage.toNat) :
    let r := dividePages z npage nproc nimage kpages true
    r.1.1.toNat ≤ npage.toNat ∧
    (r.1.1.toNat * z.Page.toNat + nproc.toNat * z.Proc.toNat + nimage.toNat * z.Image.toNat ≤
        (npage.toNat - r.1.1.toNat) * BY2PG →
      r.2 = true ∧ r.1.2.2.toNat ≤ npage.toNat * BY2PG) := by
  change _ * 4096 < _ at hFits
  have hKept : (capPages kpages).toNat ≤ npage.toNat := (capPages_le kpages).trans hShare
  generalize hCap : capPages kpages = kept at hKept
  have hSize : (4096 : Word).toNat = 4096 := rfl
  obtain ⟨hSub, hUser⟩ := sub_of_le (a := npage) (b := kept) true hKept
  -- the kept pages, and half of them, are fewer bytes than the memory has
  have hHalf : (kept / 2).toNat * (4096 : Word).toNat < 2 ^ 32 := by
    have hTwo : (2 : Word).toNat = 2 := rfl
    rw [BitVec.toNat_udiv, hTwo, hSize]
    exact lt_of_le_of_lt (Nat.mul_le_mul_right _ ((Nat.div_le_self _ _).trans hKept)) hFits
  obtain ⟨hMulHalf, -⟩ := mul_of_lt true hHalf
  have hAll : kept.toNat * (4096 : Word).toNat < 2 ^ 32 := by
    rw [hSize]
    exact lt_of_le_of_lt (Nat.mul_le_mul_right _ hKept) hFits
  obtain ⟨hMulAll, hBytes⟩ := mul_of_lt true hAll
  rw [hSize] at hBytes
  have hRun : dividePages z npage nproc nimage kpages true =
      let t := tableBytes z (npage - kept) nproc nimage true
      ((npage - kept, kept / 2 * 4096, (sub (kept * 4096) t.1 t.2).1), (sub (kept * 4096) t.1 t.2).2) := by
    simp only [dividePages, bind_apply, pure_apply, hCap, hSub, hMulHalf, hMulAll]
  rw [hRun]
  refine ⟨by change (npage - kept).toNat ≤ _; omega, fun hTables => ?_⟩
  -- the tables fit into what is kept, so the last difference is exact too
  change (npage - kept).toNat * _ + _ + _ ≤ (npage.toNat - (npage - kept).toNat) * 4096 at hTables
  obtain ⟨v, hTable, hValue⟩ := tableBytes_spec z (npage - kept) nproc nimage (by omega)
  obtain ⟨hSubTable, hLeft⟩ := sub_of_le (a := kept * 4096) (b := v) true (by omega)
  simp only [hTable, hSubTable]
  refine ⟨trivial, ?_⟩
  rw [hLeft]
  change _ ≤ _ * 4096
  omega

theorem userpcnt_le (hAsked : ∀ p ∈ c.getconfStr (ascii "*kernelpercent"),
    1 ≤ strtol p ∧ strtol p ≤ 99) : c.userpcnt.toNat ≤ 99 := by
  unfold BootConf.userpcnt
  cases hConf : c.getconfStr (ascii "*kernelpercent") with
  | none => exact Nat.zero_le _
  | some p =>
    obtain ⟨hOne, hMost⟩ := hAsked p hConf
    obtain ⟨k, hk⟩ := Int.eq_ofNat_of_zero_le (show 0 ≤ strtol p by omega)
    change (100 - BitVec.ofInt 32 (strtol p)).toNat ≤ 99
    rw [hk, BitVec.ofInt_natCast]
    bv_omega

/-- Over filled banks `confinit` is right: if `*kernelpercent` is absent or from 1 to 99,
and the kernel's share exceeds its tables, nothing wraps. -/
theorem confinit_sized (hBanks : s.conf.banks.toNat = n)
    (hFits : n * BY2PG < 2 ^ 32) (hPage : z.Page.toNat ≤ 2048)
    (hAsked : ∀ p ∈ c.getconfStr (ascii "*kernelpercent"), 1 ≤ strtol p ∧ strtol p ≤ 99)
    (hTables : let r := (confinit z cpuserver c s true).1.conf
      r.upages.toNat * z.Page.toNat + r.nproc.toNat * z.Proc.toNat + r.nimage.toNat * z.Image.toNat ≤
        (n - r.upages.toNat) * BY2PG) :
    Sized n (confinit z cpuserver c s true) := by
  subst hBanks
  obtain ⟨nproc, hRunProcs, hProcs, hFew⟩ := numProcs_spec cpuserver hFits
  obtain ⟨kpages, nimage, arena, hRunShare, hShare⟩ := sharePages_spec z cpuserver
    s.imagmem.minarena hFits (userpcnt_le hAsked) hPage hProcs hFew
  obtain ⟨hUser, hRest⟩ := dividePages_spec z nproc nimage hFits hShare
  -- with no note lost on the way, all hangs on the division
  have hRun : confinit z cpuserver c s true =
      let d := dividePages z s.conf.banks nproc nimage kpages true
      ({ s with
          conf := { s.conf with
            npage := s.conf.banks
            nproc
            nimage
            nswap := 0
            nswppo := 0
            upages := d.1.1
            ialloc := d.1.2.1 }
          mainmem := { s.mainmem with maxsize := d.1.2.2 }
          imagmem :=
            { maxsize := if cpuserver then s.imagmem.maxsize else d.1.2.2
              minarena := arena } }, d.2) := by
    simp only [confinit, bind_apply, pure_apply, hRunProcs, hRunShare]
  rw [hRun] at hTables ⊢
  obtain ⟨hExact, hBytes⟩ := hRest hTables
  exact ⟨rfl, hUser, hExact, hBytes⟩

/-! ## The start of the kernel -/

/-- After `meminit` and `confinit` the sizes are those of no memory, whatever the host
has, whatever the configuration asks for and however large the structures are. -/
theorem memory_sizing_never (z : Sizes) (cpuserver : Bool) (c : BootConf) (h : HostPages)
    (mainmem imagmem : Pool) :
    let r := memstart z cpuserver c h mainmem imagmem
    ¬ Sized h.npage.toNat r ∧ r.1.conf.npage = 0 ∧ r.1.conf.upages = 0 ∧ r.2 = false ∧
      r.1.mainmem.maxsize = -(fewProcs cpuserver * z.Proc + 200 * z.Image) := by
  -- `meminit` leaves the banks of `conf.mem` zeroed
  have hEmpty : (meminit h { mainmem, imagmem }).conf.banks = 0 := rfl
  obtain ⟨hPages, hUser, hBytes, hNote⟩ :=
    confinit_empty z cpuserver c hEmpty
  refine ⟨fun hSized => ?_, hPages, hUser, hNote, hBytes⟩
  rw [memstart] at hSized
  rw [hSized.exact] at hNote
  cases hNote

end

/-! ## The host's 65536 pages -/

/-- Sizes of about those of the port's structures. -/
def someSizes : Sizes where
  Page      := 64
  Proc      := 2048
  Image     := 64
  Page_pos  := by decide
  Proc_pos  := by decide
  Image_pos := by decide

/-- A terminal without a configuration, on the host's 256 MB. -/
def terminalStart : Sizing × Bool :=
  memstart someSizes false { confbuf := [], confs := [] }
    { npage := 65536, phmem := 0x20000000, ustktop := 0x10000000 } ⟨0, 0⟩ ⟨0, 0⟩

/-- The kernel starts with no pages, and a pool that may grow to four gigabytes. -/
theorem terminal_without_pages :
    terminalStart.1.bank.npage = 65536 ∧ terminalStart.1.conf.npage = 0 ∧
      terminalStart.1.mainmem.maxsize = 0xFFFCAE00 ∧ ¬ Sized 65536 terminalStart := by
  refine ⟨by decide +kernel, by decide +kernel, by decide +kernel, fun hSized => ?_⟩
  exact absurd hSized.npage (by decide +kernel)

end Glendum
