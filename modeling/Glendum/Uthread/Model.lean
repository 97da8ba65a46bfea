import Glendum.Kernel.Types
import Glendum.Lib.AddressSpace

/-!
# Glendum — user thread control

The model of `uthread.c` and of the host functions it calls (`umhost.c`).

The kernel side is a state `Kernel`: the thread descriptors, the processes, the
pages, and what `ptrace` shows of every host process (registers and memory).
Each call that reaches the host is a `HostCall`; `Kernel.call` performs it and
appends it to `trace`, so that the order of the calls is part of the state.

The user side is a state `UserSide`: the address space of one user thread and
its private copy of `curmap` and `curmlen`, which only `do_maps` touches.

Prints are kept only where they report a branch of `kthread_loop` or
`umem_remap`.
-/

namespace Glendum

open Machine

/-! ## What the host shows of a process -/

/-- Registers in the user area; `origEax` is the syscall number at a syscall
stop. -/
structure Regs where
  eax     : Word := 0
  ebx     : Word := 0
  ecx     : Word := 0
  edx     : Word := 0
  esi     : Word := 0
  edi     : Word := 0
  ebp     : Word := 0
  esp     : Word := 0
  eip     : Word := 0
  eflags  : Word := 0
  origEax : Word := 0
deriving DecidableEq

structure HostThread where
  regs : Regs
  mem  : Memory

/-- The registers that `umhost.c` pokes. -/
inductive Reg
  | sys | eax | eip | esp
deriving DecidableEq

def Regs.set (r : Regs) : Reg → Word → Regs
  | .sys, v => { r with origEax := v }
  | .eax, v => { r with eax := v }
  | .eip, v => { r with eip := v }
  | .esp, v => { r with esp := v }

/-- The function that issued a register poke. -/
inductive Site
  | touser | umemRemap | handleRemap
deriving DecidableEq

inductive HostCall
  | poke (site : Site) (pid : Int) (r : Reg) (v : Word)
  | pokeUser (pid : Int) (addr v : Word)
  | ptraceCont (pid : Int) (hsyscall : Int)
  | print (msg : String)
  | printSyscall (sysno eip : Word)
deriving DecidableEq

def HostCall.apply (host : Int → HostThread) : HostCall → Int → HostThread
  | .poke _ pid r v =>
    Function.update host pid { host pid with regs := (host pid).regs.set r v }
  | .pokeUser pid addr v =>
    Function.update host pid { host pid with mem := (host pid).mem.store32 addr v }
  | .ptraceCont .. | .print _ | .printSyscall .. => host

/-! ## Wait statuses (`sys/wait.h`) and syscall numbers -/

def SIGTRAP : Word := 5
def SIGSEGV : Word := 11

def wifstopped (status : Word) : Bool := status &&& 0xFF == 0x7F
def wstopsig (status : Word) : Word := (status &&& 0xFF00) >>> 8

def isSysc (status : Word) : Bool := wifstopped status && wstopsig status == SIGTRAP ||| 0x80
def isSegv (status : Word) : Bool := wifstopped status && wstopsig status == SIGSEGV

/-- `__NR_exit` or `__NR_exit_group`. -/
def isExit (sysc : Word) : Bool := sysc == 1 || sysc == 252

/-- The two ways `ptrace_cont` restarts a thread. -/
inductive PtraceRequest
  /-- `PTRACE_SYSCALL`: host syscalls are executed -/
  | syscall
  /-- `PTRACE_SYSEMU`: host syscalls are only caught -/
  | sysemu
deriving DecidableEq

def ptraceRequest (hsyscall : Int) : PtraceRequest := if hsyscall ≠ 0 then .syscall else .sysemu

/-! ## Kernel state -/

/-- Addresses fixed when the kernel is linked. -/
structure KernelImage where
  upstk  : Word
  doMaps : Word
  upstk_fits : upstk.toNat + UPSTKSZ ≤ 2 ^ 32

structure Kernel where
  uthreads   : Nat → Uthread
  actthreads : Nat
  procs      : Nat → Proc
  up         : Nat
  pages      : PageId → Page
  host       : Int → HostThread
  trace      : List HostCall := []

namespace Kernel

def call (k : Kernel) (c : HostCall) : Kernel :=
  { k with host := c.apply k.host, trace := k.trace ++ [c] }

def setUthread (k : Kernel) (i : Nat) (f : Uthread → Uthread) : Kernel :=
  { k with uthreads := Function.update k.uthreads i (f (k.uthreads i)) }

section

variable (k : Kernel) (c : HostCall) (i : Nat) (f : Uthread → Uthread)

/-- A call of the host changes the host and the trace, and no field of the kernel's own. -/
@[simp] theorem call_uthreads : (k.call c).uthreads = k.uthreads := rfl
@[simp] theorem call_actthreads : (k.call c).actthreads = k.actthreads := rfl
@[simp] theorem call_procs : (k.call c).procs = k.procs := rfl
@[simp] theorem call_up : (k.call c).up = k.up := rfl
@[simp] theorem call_pages : (k.call c).pages = k.pages := rfl

/-- The host is as the call has left it. -/
@[simp] theorem call_host : (k.call c).host = c.apply k.host := rfl

/-- The call comes last in the trace. -/
@[simp] theorem call_trace : (k.call c).trace = k.trace ++ [c] := rfl

/-- A field of a thread is set in this thread only, and nowhere else in the kernel. -/
@[simp] theorem setUthread_uthreads :
    (k.setUthread i f).uthreads = Function.update k.uthreads i (f (k.uthreads i)) := rfl
@[simp] theorem setUthread_actthreads : (k.setUthread i f).actthreads = k.actthreads := rfl
@[simp] theorem setUthread_procs : (k.setUthread i f).procs = k.procs := rfl
@[simp] theorem setUthread_up : (k.setUthread i f).up = k.up := rfl
@[simp] theorem setUthread_pages : (k.setUthread i f).pages = k.pages := rfl
@[simp] theorem setUthread_host : (k.setUthread i f).host = k.host := rfl

/-- What the kernel sets of a thread is no call of the host. -/
@[simp] theorem setUthread_trace : (k.setUthread i f).trace = k.trace := rfl

end

def peekSys (k : Kernel) (pid : Int) : Word := (k.host pid).regs.origEax
def peekEax (k : Kernel) (pid : Int) : Word := (k.host pid).regs.eax
def peekEip (k : Kernel) (pid : Int) : Word := (k.host pid).regs.eip
def peekEsp (k : Kernel) (pid : Int) : Word := (k.host pid).regs.esp
def peekUser (k : Kernel) (pid : Int) (addr : Word) : Word := (k.host pid).mem.load32 addr

end Kernel

/-- The descriptors as `uthreadinit` leaves them, one for each forked pid. -/
def uthreadinit (pids : List Int) : Nat → Uthread := fun i =>
  { upid := pids.getD i 0, uthridx := i, hsyscalls := 0, state := .idle }

def findUthread (k : Kernel) (pid : Int) : Option Nat :=
  (List.range k.actthreads).find? fun i => (k.uthreads i).upid == pid

/-! ## Remapping, kernel side -/

def M_R : Word := 1
def M_W : Word := 2
def M_X : Word := 4

def segperm : SegType → Word
  | .text => M_R ||| M_X
  | .data | .bss | .stack => M_R ||| M_W
  | .shared | .physical => 0

/-- Where `umem_remap` stands while it builds the frame. -/
structure FrameBuild where
  k     : Kernel
  usptr : Word
  nmap  : Nat

def segTypeMsg : String := "pid %uld segment %d %d type %d\n"

namespace FrameBuild

/-- The body of the innermost loop of `umem_remap`. -/
def page (upid : Int) (perm : Word) (f : FrameBuild) : Option PageEntry → Except Fault FrameBuild
  | none => .ok f
  | some (.swap _) => .error .swapEntry
  | some (.page p) =>
    let pg := f.k.pages p
    let mapping0 := pg.pa &&& pageMask ||| perm
    let mapping1 := pg.va &&& pageMask ||| 1
    -- the frame grows down, so the second word of the pair is stored first
    let k := f.k.call (.pokeUser upid f.usptr mapping1)
    let k := k.call (.pokeUser upid (f.usptr - 4) mapping0)
    .ok { k, usptr := f.usptr - 8, nmap := f.nmap + 1 }

def pte (upid : Int) (type : SegType) (f : FrameBuild) : Option Pte → Except Fault FrameBuild
  | none => .ok f
  | some p =>
    -- these segments get no rights, and a message
    let f := match type with
      | .shared | .physical => { f with k := f.k.call (.print segTypeMsg) }
      | _ => f
    p.pages.toList.foldlM (page upid (segperm type)) f

def segment (upid : Int) (f : FrameBuild) : Option Segment → Except Fault FrameBuild
  | none => .ok f
  | some s => s.map.foldlM (pte upid s.type) f

/-- The rest of `umem_remap`, from the poke of `nmap` on. -/
def divert (img : KernelImage) (i : Nat) (upid : Int) (f : FrameBuild) : Kernel :=
  let k := f.k.call (.pokeUser upid f.usptr (BitVec.ofNat 32 f.nmap))
  let usptr := f.usptr - 4
  -- the return address of `do_maps`
  let k := k.call (.pokeUser upid usptr 0)
  let k := k.call (.poke .umemRemap upid .eax 0)
  let k := k.call (.poke .umemRemap upid .esp usptr)
  let k := k.call (.poke .umemRemap upid .eip img.doMaps)
  k.setUthread i fun u => { u with hsyscalls := 1, state := .remapping }

end FrameBuild

/-- The first word of the frame: the last word of `upstk`. -/
def KernelImage.frameTop (img : KernelImage) : Word := img.upstk + BitVec.ofNat 32 UPSTKSZ - 4

def umemRemap (img : KernelImage) (k : Kernel) (i : Nat) : Except Fault Kernel :=
  if (k.procs k.up).newtlb then
    let upid := (k.uthreads i).upid
    let usptr := img.frameTop
    let k := k.setUthread i fun u =>
      { u with state := .remapping, mmeax := k.peekEax upid, mmeip := k.peekEip upid,
               mmesp := k.peekEsp upid }
    match (k.uthreads i).proc with
    | none => .error .nilDeref
    | some p =>
      match (k.procs p).seg.foldlM (FrameBuild.segment upid) { k, usptr, nmap := 0 } with
      | .error e => .error e
      | .ok f => .ok (f.divert img i upid)
  else .ok k

/-! ## The kernel thread loop -/

def handleRemap (k : Kernel) (i : Nat) : Kernel :=
  let uthr := k.uthreads i
  let k :=
    if isExit (k.peekSys uthr.upid) then
      -- no host syscall has this number, so the exit does not happen
      let k := k.call (.poke .handleRemap uthr.upid .sys 0xFFFFFFFF)
      let k := k.call (.poke .handleRemap uthr.upid .eax uthr.mmeax)
      let k := k.call (.poke .handleRemap uthr.upid .eip uthr.mmeip)
      let k := k.call (.poke .handleRemap uthr.upid .esp uthr.mmesp)
      k.setUthread i fun u => { u with state := .running, hsyscalls := 0 }
    else k
  k.call (.ptraceCont uthr.upid (k.uthreads i).hsyscalls)

/-- What `host_waitpid` returns, and what the process it names looks like at
that stop. -/
structure WaitResult where
  rc     : Int
  status : Word
  thread : HostThread

/-- The kernel when a process has stopped. -/
def Kernel.stopped (k : Kernel) (ev : WaitResult) : Kernel :=
  { k with host := Function.update k.host ev.rc ev.thread }

def notRemappingMsg : String := "syscall while not in remapping state\n"

/-- One iteration of `kthread_loop`. -/
def kthreadIter (k : Kernel) (ev : WaitResult) : Except Fault Kernel :=
  let k := k.stopped ev
  match findUthread k ev.rc with
  | none => .ok k
  | some i =>
    let uthr := k.uthreads i
    match uthr.proc with
    | none => .error .nilDeref  -- the print reads `uthr->proc->pid`
    | some _ =>
      if isSysc ev.status ∧ uthr.hsyscalls ≠ 0 then
        if uthr.state = .remapping then .ok (handleRemap k i)
        -- the thread is not restarted here
        else .ok (k.call (.print notRemappingMsg))
      else if isSegv ev.status ∧ uthr.state = .running then
        let eip := k.peekEip uthr.upid
        let instr := k.peekUser uthr.upid eip
        let sysno := k.peekEax uthr.upid &&& 0xFF
        -- the bytes of `int 0x40`
        if instr &&& 0xFFFF = 0x40CD then .ok (k.call (.printSyscall sysno eip)) else .ok k
      else .ok k

/-- `kthread_loop` over the wait results it receives. -/
def kthreadLoop (k : Kernel) (evs : List WaitResult) : Except Fault Kernel :=
  evs.foldlM kthreadIter k

def touser (img : KernelImage) (k : Kernel) (sp : Word) : Except Fault Kernel := do
  let k := { k with procs := Function.update k.procs k.up
                      { k.procs k.up with uthr := some 0 } }
  let k := k.setUthread 0 fun u => { u with proc := some k.up }
  let upid := (k.uthreads 0).upid
  let k := k.call (.poke .touser upid .eax 0)
  let k := k.call (.poke .touser upid .eip (UTZERO + 32))
  let k := k.call (.poke .touser upid .esp sp)
  let k := k.setUthread 0 fun u => { u with state := .running }
  let k ← umemRemap img k 0
  .ok (k.call (.ptraceCont upid (k.uthreads 0).hsyscalls))

/-! ## Remapping, user side -/

/-- The address where the host image starts (`phys` in `glendum.ld`). -/
def hostPhys : Word := 0x70000000

def ustktop : Word := hostPhys - 0x1000

/-- The host rights for a mask of `M_R`, `M_W` and `M_X`. -/
def protOf (mprot : Word) : Prot :=
  { read := mprot &&& M_R != 0, write := mprot &&& M_W != 0, exec := mprot &&& M_X != 0 }

def hostMmap (as : AddressSpace) (fd : Int) (pa va length mprot : Word) : AddressSpace :=
  if mprot = 0 then as.munmap va.toNat length.toNat
  else as.mmap va.toNat length.toNat (protOf mprot) fd (pa - PHYSBASE).toNat

/-- A user thread's address space and its copy of the per-thread area. -/
structure UserSide where
  memfd   : Int
  space   : AddressSpace
  curmap  : Option (List Word) := none
  curmlen : Nat := 0

/-- The mapping at index `i` of an array of pairs of words. -/
def unmapOld (memfd : Int) (old : List Word) (as : AddressSpace) (i : Nat) : AddressSpace :=
  let pa := old.getD (2 * i) 0 &&& pageMask
  let va := old.getD (2 * i + 1) 0 &&& pageMask
  let length := (old.getD (2 * i + 1) 0 &&& 0xFFF) <<< 12
  hostMmap as memfd pa va length 0

def mapNew (memfd : Int) (mapping : Nat → Word) (as : AddressSpace) (i : Nat) : AddressSpace :=
  let pa := mapping (2 * i) &&& pageMask
  let va := mapping (2 * i + 1) &&& pageMask
  let prot := mapping (2 * i) &&& 0x07
  let length := (mapping (2 * i + 1) &&& 0xFFF) <<< 12
  hostMmap as memfd pa va length prot

/-- `do_maps`, entered with its frame at `esp`: a return address, `nmaps`, and
the mappings from `map0` up. -/
def doMaps (u : UserSide) (mem : Memory) (esp : Word) : UserSide :=
  let nmaps := (mem.load32 (esp + 4)).toNat
  let map0 := fun i => mem.load32 (esp + 8 + BitVec.ofNat 32 (4 * i))
  let space := match u.curmap with
    | some old => (List.range u.curmlen).foldl (unmapOld u.memfd old) u.space
    | none => u.space
  { u with
    space := (List.range nmaps).foldl (mapNew u.memfd map0) space
    curmap := some ((List.range (2 * nmaps)).map map0)
    curmlen := nmaps }

end Glendum
