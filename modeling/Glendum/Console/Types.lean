import Glendum.Lib.Bytes
import Glendum.Lib.Ring
import Glendum.Lib.Window

/-!
# Glendum — console data

The data of the console driver (`devumcons.c`) under the source's names. Locks are
left out: every operation of this model runs as a whole. The queues are first-in
first-out: `kbdq` of bytes, `lineq` of the blocks that were written to it.
-/

namespace Glendum

open Machine

/-- The files of the driver, by `qid.path`. -/
inductive Qid
  | Qdir | Qbintime | Qcons | Qconsctl | Qcputime | Qdrivers | Qkmesg | Qkprint
  | Qhostdomain | Qhostowner | Qnull | Qosversion | Qpgrpid | Qpid | Qppid | Qrandom
  | Qreboot | Qswap | Qsysname | Qsysstat | Qtime | Quser | Qzero
deriving DecidableEq

/-- `sizeof kbd.line` and `sizeof kbd.istage`. -/
def LINESIZE : Nat := 1024

/-- `sizeof kmesg.buf`. -/
def KMESGSIZE : Nat := 16384

/-- The record `kbd`; the pointers `iw` and `ir` into `istage` are positions. -/
structure Kbd where
  raw     : Bool := false
  ctl     : Nat := 0
  x       : Nat := 0
  line    : Vector Byte LINESIZE := .replicate LINESIZE 0
  ctlpoff : Bool := false
  istage  : RingBuf Byte LINESIZE := ⟨.replicate LINESIZE 0, ⟨0, by decide⟩, ⟨0, by decide⟩⟩

/-- A queue that `qhangup` has closed for reading stays allocated, and `qreopen`
makes it usable again. -/
inductive QState
  | working | closed
deriving DecidableEq

/-- The statics of the driver. `ctrlt` is the counter in `echo`, `exiting` is
`active.exiting`; `none` for a queue is the nil pointer. `hostout` is what the host was
given to write. -/
structure Cons where
  kbd         : Kbd := {}
  kbdq        : List Byte := []
  lineq       : List (List Byte) := []
  kprintinuse : Nat := 0
  kprintoq    : Option QState := none
  kmesg       : Window Byte KMESGSIZE := ⟨.replicate KMESGSIZE 0, 0, List.length_replicate, Nat.zero_le _⟩
  ctrlt       : Nat := 0
  exiting     : Bool := false
  hostout     : List Byte := []

end Glendum
