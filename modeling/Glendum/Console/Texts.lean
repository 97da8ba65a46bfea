import Glendum.Arch.Mach
import Glendum.Conf.Isa
import Glendum.Console.Keys
import Glendum.Console.KmesgWords
import Glendum.Kernel.Types

/-!
# Glendum — the text files of the console

Twelve files of the driver show a text that `consread` makes up for the read: numbers
in columns, or a string. The offset of a read has 64 bits and is narrowed before it
meets the text, to an unsigned word in `readnum` and `readstr`, to a signed one in the
case of `cputime`. Words are `BitVec`s here, with the comparisons of the source; a
`memmove` that reads outside the text has no result. The texts that `consread` builds
in allocated memory get it.

* `text_nul` — every text is a string, so that `strlen` finds its end;
* `readnum_eq` — a number is read as the text that it is formatted to;
* `readstr_exact`, `cputime_exact` — where a read returns the bytes from its offset on;
* `text_read_exact` — the same for the files;
* `pid_read_again` — a read at an offset of four gigabytes.
-/

namespace Glendum

open Machine

/-! ## The data -/

def NUMSIZE : Nat := 12

/-- A string of the kernel; its length is a `ulong`. -/
abbrev KStr := { s : List Byte // (0 : Byte) ∉ s ∧ s.length < 2 ^ 32 }

/-- `devtab[i]->dc` and `devtab[i]->name`. -/
structure Dev where
  dc   : Rune
  name : CStr

/-- What the port headers settle for the files. -/
structure ConsPort where
  TReal   : Nat
  TK2MS   : Word → Word
  READSTR : Nat
  devtab  : List Dev
  fits    : READSTR < 2 ^ 31
  chars   : ∀ d ∈ devtab, d.dc ≠ 0

/-- What the files show. `ticks` is that of `MACHP(0)`, and `sysstat` is what the loop
over `active.machs` reads, for 32 processors at most. -/
structure Shown where
  time       : Vector Word 6
  ticks      : Word
  pid        : Word
  parentpid  : Word
  pgrpid     : Word
  user       : KStr
  eve        : KStr
  hostdomain : KStr
  sysname    : Option KStr
  npage      : Word
  upages     : Word
  palloc     : Word × Word
  mainmem    : Word × Word
  imagmem    : Word × Word
  sysstat    : { l : List Sysstat // l.length ≤ 32 }

/-- The files, by `qid.path`. -/
inductive TextFile
  | Qcputime | Qpid | Qppid | Qpgrpid | Quser | Qhostowner | Qhostdomain | Qsysname | Qswap
  | Qsysstat | Qdrivers | Qosversion
deriving DecidableEq

/-! ## Formatting -/

/-- `%lud` -/
def lud (v : Word) : List Byte := decimal v.toNat

/-- `%*lud` -/
def ludWide (width : Nat) (v : Word) : List Byte :=
  List.replicate (width - (lud v).length) (ch ' ') ++ lud v

/-- `snprint` into `n` bytes writes no more than `n - 1` of the text. -/
def snprint (n : Nat) (s : List Byte) : List Byte := s.take (n - 1)

/-- The first `size` bytes of the buffer of `readnum`. -/
def numText (size : Nat) (val : Word) : List Byte :=
  ((ludWide (size - 1) val ++ [0]).set (size - 1) (ch ' ')).take size

/-! ## Reading -/

/-- What a read returns, with the bytes that it copies; `none` when it reads outside the
text. -/
abbrev TextRead := Option (Word × List Byte)

/-- `memmove` of `n` bytes of a text. -/
def copyOut (text : List Byte) (pos n : Word) : TextRead :=
  (bytesAt text pos.toNat n.toNat).map fun bs => (n, bs)

def readnum (off n val : Word) (size : Nat) : TextRead :=
  let tmp := numText size val
  let size := BitVec.ofNat 32 size
  if off ≥ size then some (0, []) else
  copyOut tmp off (if off + n > size then size - off else n)

def readstr (off n : Word) (str : List Byte) : TextRead :=
  let size := BitVec.ofNat 32 str.length
  if off ≥ size then some (0, []) else
  copyOut str off (if off + n > size then size - off else n)

/-- What `readnum(0, bp, NUMSIZE, val, NUMSIZE)` writes. -/
def column (val : Word) : List Byte :=
  ((readnum 0 (BitVec.ofNat 32 NUMSIZE) val NUMSIZE).map Prod.snd).getD []

/-- The number of the column `i` of `cputime`. -/
def cpuMs (P : ConsPort) (s : Shown) (i : Nat) : Word :=
  let l := s.time.toList.getD i 0
  P.TK2MS (if i = P.TReal then s.ticks - l else l)

/-- The loop over the columns, as far as the read needs them. -/
def formatTimes (P : ConsPort) (s : Shown) (upto : Int) : List Nat → List Byte → List Byte
  | [], tmp => tmp
  | i :: is, tmp =>
    if ((NUMSIZE * i : Nat) : Int) < upto then
      formatTimes P s upto is (overwrite tmp (NUMSIZE * i) (column (cpuMs P s i)))
    else tmp

/-- The case `Qcputime`; `tmp` is what the first 72 bytes of the buffer hold before. -/
def cputime (P : ConsPort) (s : Shown) (tmp : Vector Byte (6 * NUMSIZE)) (k n : Word) : TextRead :=
  let size := 6 * NUMSIZE
  if k.toInt ≥ size then some (0, []) else
  let n := if (k + n).toInt > size then BitVec.ofNat 32 size - k else n
  let tmp := formatTimes P s (k + n).toInt (List.range 6) tmp.toList
  if k.toInt < 0 then none else copyOut tmp k n

/-! ## The texts -/

def timesText (P : ConsPort) (s : Shown) : List Byte :=
  (List.range 6).flatMap fun i => column (cpuMs P s i)

def sysstatNums (l : Sysstat) : List Word :=
  [BitVec.ofNat 32 l.id, l.counters .cs, l.counters .intr, l.counters .syscall, l.counters .pfault,
    l.counters .tlbfault, l.counters .tlbpurge, l.load, l.inidle, l.inintr]

def sysstatText (ls : List Sysstat) : List Byte :=
  ls.flatMap fun l => (sysstatNums l).flatMap column ++ [ch '\n']

def swapText (s : Shown) : List Byte :=
  snprint 256 <|
    lud (s.npage * BitVec.ofNat 32 BY2PG) ++ ascii " memory\n" ++
    decimal BY2PG ++ ascii " pagesize\n" ++
    lud (s.npage - s.upages) ++ ascii " kernel\n" ++
    lud (s.palloc.1 - s.palloc.2) ++ ascii "/" ++ lud s.palloc.1 ++ ascii " user\n" ++
    lud s.mainmem.1 ++ ascii "/" ++ lud s.mainmem.2 ++ ascii " kernel malloc\n" ++
    lud s.imagmem.1 ++ ascii "/" ++ lud s.imagmem.2 ++ ascii " kernel draw\n"

/-- `#%C %s` -/
def Dev.line (d : Dev) : List Byte :=
  ch '#' :: runetochar d.dc ++ ch ' ' :: d.name.1 ++ [ch '\n']

def driversText (P : ConsPort) : List Byte :=
  P.devtab.foldl (fun b d => b ++ snprint (P.READSTR - b.length) d.line) []

def TextFile.text (P : ConsPort) (s : Shown) : TextFile → List Byte
  | .Qcputime => timesText P s
  | .Qpid => numText NUMSIZE s.pid
  | .Qppid => numText NUMSIZE s.parentpid
  | .Qpgrpid => numText NUMSIZE s.pgrpid
  | .Quser => s.user.1
  | .Qhostowner => s.eve.1
  | .Qhostdomain => s.hostdomain.1
  | .Qsysname => (s.sysname.map Subtype.val).getD []
  | .Qswap => swapText s
  | .Qsysstat => sysstatText s.sysstat.1
  | .Qdrivers => driversText P
  | .Qosversion => snprint 256 (ascii "2000")

/-- `consread` of one of these files. -/
def consread (P : ConsPort) (s : Shown) (tmp : Vector Byte (6 * NUMSIZE)) (f : TextFile) (n : Word)
    (offset : BitVec 64) : TextRead :=
  if n.toInt ≤ 0 then some (n, []) else
  let off := offset.setWidth 32
  match f with
  | .Qcputime => cputime P s tmp off n
  | .Qpid => readnum off n s.pid NUMSIZE
  | .Qppid => readnum off n s.parentpid NUMSIZE
  | .Qpgrpid => readnum off n s.pgrpid NUMSIZE
  | .Quser => readstr off n s.user.1
  | .Qhostowner => readstr off n s.eve.1
  | .Qhostdomain => readstr off n s.hostdomain.1
  | .Qsysname =>
    match s.sysname with
    | none => some (0, [])
    | some name => readstr off n name.1
  | .Qswap => readstr off n (swapText s)
  | .Qsysstat => readstr off n (sysstatText s.sysstat.1)
  | .Qdrivers => readstr off n (driversText P)
  | .Qosversion => readstr off n (snprint 256 (ascii "2000"))

/-! ## The texts are strings -/

/-- A number column has its size. -/
theorem length_numText (val : Word) : (numText NUMSIZE val).length = NUMSIZE := by
  rw [numText, List.length_take, List.length_set, List.length_append, List.length_singleton, ludWide,
    List.length_append, List.length_replicate]
  change min 12 (12 - 1 - _ + _ + 1) = 12
  omega

/-- `readnum` is `readstr` of the column. -/
theorem readnum_eq (off n val : Word) : readnum off n val NUMSIZE = readstr off n (numText NUMSIZE val) := by
  rw [readnum, readstr, length_numText]

/-- A column of the other files is the same. -/
theorem column_eq (val : Word) : column val = numText NUMSIZE val := by
  have hLen := length_numText val
  have hFirst : ¬ (0 : Word) ≥ BitVec.ofNat 32 NUMSIZE := by decide
  have hWhole : ¬ (0 : Word) + BitVec.ofNat 32 NUMSIZE > BitVec.ofNat 32 NUMSIZE := by decide
  have hRead : bytesAt (numText NUMSIZE val) 0 12 = some (numText NUMSIZE val) := by
    rw [bytesAt_some (by rw [hLen]; decide), List.drop_zero, List.take_of_length_le (by rw [hLen]; decide)]
  rw [column, readnum, if_neg hFirst, if_neg hWhole, copyOut]
  change ((Option.map _ (bytesAt _ 0 12)).map Prod.snd).getD [] = _
  rw [hRead]
  rfl

/-- Digits are no NUL. -/
theorem lud_nul (v : Word) : (0 : Byte) ∉ lud v := decimal_nul _

/-- `tmp[size-1]` is the last byte that is used. -/
theorem numText_append (val : Word) :
    numText NUMSIZE val = (ludWide 11 val).take 11 ++ [ch ' '] := by
  have hLen : 11 ≤ (ludWide 11 val).length := by
    rw [ludWide, List.length_append, List.length_replicate]
    omega
  change ((ludWide 11 val ++ [0]).set 11 (ch ' ')).take 12 = _
  rw [List.set_eq_take_append_cons_drop, if_pos (by rw [List.length_append, List.length_singleton]; omega),
    List.take_append_of_le_length hLen, List.take_append, List.length_take, Nat.min_eq_left hLen,
    List.take_take]
  rfl

/-- Nor is anything else in a column. -/
theorem numText_nul (val : Word) : (0 : Byte) ∉ numText NUMSIZE val := by
  rw [numText_append]
  intro hMem
  rcases List.mem_append.mp hMem with hWide | hBlank
  · rcases List.mem_append.mp (List.mem_of_mem_take hWide) with hPad | hDigit
    · exact absurd (List.eq_of_mem_replicate hPad) (by decide)
    · exact lud_nul val hDigit
  · exact absurd (List.mem_singleton.mp hBlank) (by decide)

/-- Columns have no NUL. -/
theorem columns_nul (vs : List Word) : (0 : Byte) ∉ vs.flatMap column := by
  intro hMem
  obtain ⟨v, -, hCol⟩ := List.mem_flatMap.mp hMem
  rw [column_eq] at hCol
  exact numText_nul v hCol

/-- Each column has the same size. -/
theorem length_columns (vs : List Word) : (vs.flatMap column).length = NUMSIZE * vs.length := by
  induction vs with
  | nil => rfl
  | cons v vs ih =>
    rw [List.flatMap_cons, List.length_append, ih, column_eq, length_numText, List.length_cons, Nat.mul_succ,
      Nat.add_comm]

/-- The file of the times has a column for each of the six. -/
theorem timesText_eq (P : ConsPort) (s : Shown) :
    timesText P s = ((List.range 6).map (cpuMs P s)).flatMap column := by
  rw [timesText, List.flatMap_map]

/-- The table of the processors has no NUL. -/
theorem sysstatText_nul (ls : List Sysstat) : (0 : Byte) ∉ sysstatText ls := by
  intro hMem
  obtain ⟨l, -, hLine⟩ := List.mem_flatMap.mp hMem
  rcases List.mem_append.mp hLine with hNums | hEnd
  · exact columns_nul _ hNums
  · exact absurd (List.mem_singleton.mp hEnd) (by decide)

/-- The buffer of `sysstat` has room for 133 bytes a processor. -/
theorem length_sysstatText (ls : List Sysstat) : (sysstatText ls).length = 121 * ls.length := by
  induction ls with
  | nil => rfl
  | cons l ls ih =>
    have hLine : ((sysstatNums l).flatMap column ++ [ch '\n']).length = 121 := by
      rw [List.length_append, length_columns]
      rfl
    rw [sysstatText, List.flatMap_cons, List.length_append, hLine, ← sysstatText, ih, List.length_cons]
    omega

/-- Neither has the line of the swap. -/
theorem swapText_nul (s : Shown) : (0 : Byte) ∉ swapText s := by
  intro hMem
  have hAll := List.mem_of_mem_take hMem
  simp only [List.mem_append, lud_nul, decimal_nul, false_or, or_false] at hAll
  revert hAll
  decide

/-- Nor has the line of a device with a character. -/
theorem Dev.line_nul {d : Dev} (hChar : d.dc ≠ 0) : (0 : Byte) ∉ d.line := by
  have hName := d.name.2
  have hDc : (0 : Byte) ∉ runetochar d.dc := fun hMem => hChar (nul_mem_runetochar.mp hMem)
  have hOthers : (0 : Byte) ≠ ch '#' ∧ (0 : Byte) ≠ ch ' ' ∧ (0 : Byte) ≠ ch '\n' := by decide
  simp only [Dev.line, List.mem_append, List.mem_cons, List.not_mem_nil, or_false, not_or]
  exact ⟨⟨⟨hOthers.1, hDc⟩, hOthers.2.1, hName⟩, hOthers.2.2⟩

/-- `driversText`, with what holds of the text so far: it is a string of less than
`READSTR` bytes. -/
theorem drivers_fold (P : ConsPort) (ds : List Dev) (hChars : ∀ d ∈ ds, d.dc ≠ 0) (b : List Byte)
    (hNul : (0 : Byte) ∉ b) (hLen : b.length ≤ P.READSTR) :
    let t := ds.foldl (fun b d => b ++ snprint (P.READSTR - b.length) d.line) b
    (0 : Byte) ∉ t ∧ t.length ≤ P.READSTR := by
  induction ds generalizing b with
  | nil => exact ⟨hNul, hLen⟩
  | cons d ds ih =>
    obtain ⟨hChar, hRest⟩ := List.forall_mem_cons.mp hChars
    refine ih hRest _ ?_ ?_
    · intro hMem
      rcases List.mem_append.mp hMem with hBefore | hLine
      · exact hNul hBefore
      · exact Dev.line_nul hChar (List.mem_of_mem_take hLine)
    · rw [List.length_append, snprint, List.length_take]
      omega

/-- The list of the drivers has no NUL, and fits its buffer. -/
theorem driversText_spec (P : ConsPort) :
    (0 : Byte) ∉ driversText P ∧ (driversText P).length ≤ P.READSTR :=
  drivers_fold P P.devtab P.chars [] List.not_mem_nil (Nat.zero_le _)

/-- No text of a file has a NUL. -/
theorem text_nul (P : ConsPort) (s : Shown) (f : TextFile) : (0 : Byte) ∉ f.text P s := by
  cases f with
  | Qcputime =>
    change (0 : Byte) ∉ timesText P s
    rw [timesText_eq]
    exact columns_nul _
  | Qpid => exact numText_nul _
  | Qppid => exact numText_nul _
  | Qpgrpid => exact numText_nul _
  -- these three are NUL-free as data
  | Quser => exact s.user.2.1
  | Qhostowner => exact s.eve.2.1
  | Qhostdomain => exact s.hostdomain.2.1
  | Qsysname =>
    change (0 : Byte) ∉ (s.sysname.map Subtype.val).getD []
    cases s.sysname with
    | none => exact List.not_mem_nil
    | some name => exact name.2.1
  | Qswap => exact swapText_nul s
  | Qsysstat => exact sysstatText_nul _
  | Qdrivers => exact (driversText_spec P).1
  | Qosversion =>
    change (0 : Byte) ∉ snprint 256 (ascii "2000")
    decide

/-- Every text is shorter than a `long` can tell. -/
theorem length_text (P : ConsPort) (s : Shown) (f : TextFile) : (f.text P s).length < 2 ^ 32 := by
  cases f with
  | Qcputime =>
    change (timesText P s).length < 2 ^ 32
    rw [timesText_eq, length_columns, List.length_map, List.length_range]
    decide
  | Qpid | Qppid | Qpgrpid =>
    refine lt_of_eq_of_lt (length_numText _) ?_
    decide
  | Quser => exact s.user.2.2
  | Qhostowner => exact s.eve.2.2
  | Qhostdomain => exact s.hostdomain.2.2
  | Qsysname =>
    change ((s.sysname.map Subtype.val).getD []).length < 2 ^ 32
    cases s.sysname with
    | none => decide
    | some name => exact name.2.2
  -- cut by snprint
  | Qswap =>
    refine lt_of_le_of_lt (List.length_take_le _ _) ?_
    decide
  | Qsysstat =>
    have hFew := s.sysstat.2
    refine lt_of_eq_of_lt (length_sysstatText _) ?_
    omega
  | Qdrivers =>
    have hFits := P.fits
    refine lt_of_le_of_lt (driversText_spec P).2 ?_
    omega
  | Qosversion =>
    refine lt_of_le_of_lt (List.length_take_le _ _) ?_
    decide

/-! ## Reads -/

/-- The read returns the bytes from its offset on, as many as it asks for or as there are,
and their number. -/
def Positional (text : List Byte) (n : Word) (offset : BitVec 64) (r : TextRead) : Prop :=
  let part := (text.drop offset.toNat).take n.toNat
  r = some (BitVec.ofNat 32 part.length, part)

/-- The condition for a text that `readstr` reads: below four gigabytes the read does not
reach over them from within the text, and above them the rest of the offset lies behind
the text. -/
def StrReach (len : Nat) (n : Word) (offset : BitVec 64) : Prop :=
  if offset.toNat < 2 ^ 32 then len ≤ offset.toNat ∨ offset.toNat + n.toNat < 2 ^ 32
  else len ≤ offset.toNat % 2 ^ 32

/-- The condition for `cputime`: below two gigabytes the read does not reach over them
from within the text, and above them the rest of the offset lies behind the text, as a
signed number. -/
def TimeReach (len : Nat) (n : Word) (offset : BitVec 64) : Prop :=
  if offset.toNat < 2 ^ 31 then len ≤ offset.toNat ∨ offset.toNat + n.toNat < 2 ^ 31
  else len ≤ offset.toNat % 2 ^ 32 ∧ offset.toNat % 2 ^ 32 < 2 ^ 31

section

variable {n : Word} {offset : BitVec 64} {text : List Byte}

/-- A read that returns other than nothing from behind the text. -/
theorem not_positional_end {bs : List Byte} {m : Word} (hEnd : text.length ≤ offset.toNat)
    (hSome : bs ≠ []) : ¬ Positional text n offset (some (m, bs)) := by
  rw [Positional, List.drop_eq_nil_of_le hEnd, List.take_nil]
  intro h
  exact hSome (congrArg Prod.snd (Option.some.inj h))

/-- At the end of the text nothing is given. -/
theorem positional_end (hEnd : text.length ≤ offset.toNat) :
    Positional text n offset (some (0, [])) := by
  rw [Positional, List.drop_eq_nil_of_le hEnd, List.take_nil]
  rfl

/-- `memmove` with the clipped count, from a buffer that has the text as far as that. -/
theorem positional_copy {buf : List Byte} {k m : Word} (hk : k.toNat = offset.toNat)
    (hm : m.toNat = min n.toNat (text.length - offset.toNat)) (hIn : offset.toNat ≤ text.length)
    (hSame : buf.take (offset.toNat + m.toNat) = text.take (offset.toNat + m.toNat)) :
    Positional text n offset (copyOut buf k m) := by
  have hPart : (text.drop offset.toNat).take n.toNat = (text.drop offset.toNat).take m.toNat := by
    rw [hm, ← List.length_drop, ← List.take_eq_take_min]
  have hLen : ((text.drop offset.toNat).take m.toNat).length = m.toNat := by
    rw [List.length_take, List.length_drop]
    omega
  -- the buffer is long enough, since the text is
  have hRoom : offset.toNat + m.toNat ≤ buf.length := by
    have hLength := congrArg List.length hSame
    rw [List.length_take, List.length_take] at hLength
    omega
  have hRead : (buf.drop offset.toNat).take m.toNat = (text.drop offset.toNat).take m.toNat := by
    rw [List.take_drop, List.take_drop, hSame]
  rw [Positional, hPart, hLen, copyOut, hk, bytesAt_some hRoom, hRead, Option.map_some,
    BitVec.ofNat_toNat, BitVec.setWidth_eq]

/-- `memmove` with a count that is too large. -/
theorem not_positional_wild {buf : List Byte} {k m : Word} (hWild : buf.length < k.toNat + m.toNat) :
    ¬ Positional text n offset (copyOut buf k m) := by
  rw [Positional, copyOut, bytesAt, if_neg (by omega)]
  simp

/-- `memmove` of something, where the read should return nothing. -/
theorem not_positional_again {buf : List Byte} {k m : Word} (hEnd : text.length ≤ offset.toNat)
    (hSome : 0 < m.toNat) : ¬ Positional text n offset (copyOut buf k m) := by
  by_cases hIn : k.toNat + m.toNat ≤ buf.length
  · rw [copyOut, bytesAt_some hIn]
    refine not_positional_end hEnd (List.ne_nil_of_length_pos ?_)
    rw [List.length_take, List.length_drop]
    omega
  · exact not_positional_wild (by omega)

/-! ## readstr -/

/-- The count that `readnum` and `readstr` go on with. -/
def clip (size off n : Word) : Word := if off + n > size then size - off else n

/-- From within the text the count is cut at its end, if the sum has not wrapped. -/
theorem toNat_clip {size off n : Word} (hIn : off.toNat < size.toNat)
    (hSum : off.toNat + n.toNat < 2 ^ 32) :
    (clip size off n).toNat = min n.toNat (size.toNat - off.toNat) := by
  have hExact : (off + n).toNat = off.toNat + n.toNat := BitVec.toNat_add_of_lt hSum
  by_cases hClip : off + n > size
  · have hMore := BitVec.lt_def.mp hClip
    rw [clip, if_pos hClip, BitVec.toNat_sub_of_le (BitVec.le_def.mpr hIn.le)]
    omega
  · have hLess := BitVec.le_def.mp (BitVec.not_lt.mp hClip)
    rw [clip, if_neg hClip]
    omega

/-- A sum that wraps comes out below the offset, and the count stays as it was. -/
theorem clip_wrapped {size off n : Word} (hIn : off.toNat < size.toNat)
    (hSum : 2 ^ 32 ≤ off.toNat + n.toNat) : clip size off n = n := by
  have hWord := n.isLt
  refine if_neg fun hClip => ?_
  have hMore := BitVec.lt_def.mp hClip
  rw [BitVec.toNat_add] at hMore
  omega

/-- Inside the text something is given. -/
theorem clip_pos {size off n : Word} (hIn : off.toNat < size.toNat) (hPos : 0 < n.toNat) :
    0 < (clip size off n).toNat := by
  by_cases hSum : off.toNat + n.toNat < 2 ^ 32
  · rw [toNat_clip hIn hSum]
    omega
  · rwa [clip_wrapped hIn (by omega)]

/-- `readstr` with its offset narrowed. -/
theorem readstr_exact (text : List Byte) (n : Word) (offset : BitVec 64) (hLen : text.length < 2 ^ 32)
    (hPos : 0 < n.toNat) :
    Positional text n offset (readstr (offset.setWidth 32) n text) ↔ StrReach text.length n offset := by
  have hSize : (BitVec.ofNat 32 text.length).toNat = text.length := by
    rw [BitVec.toNat_ofNat, Nat.mod_eq_of_lt hLen]
  have hOff : (offset.setWidth 32).toNat = offset.toNat % 2 ^ 32 := BitVec.toNat_setWidth ..
  by_cases hBehind : offset.setWidth 32 ≥ BitVec.ofNat 32 text.length
  · -- the narrowed offset lies behind the text, and so does the offset
    have hMod := BitVec.le_def.mp hBehind
    rw [hSize, hOff] at hMod
    have hEnd : text.length ≤ offset.toNat := hMod.trans (Nat.mod_le _ _)
    rw [readstr, if_pos hBehind]
    refine iff_of_true (positional_end hEnd) ?_
    rw [StrReach]
    split
    · exact Or.inl hEnd
    · exact hMod
  · have hIn : (offset.setWidth 32).toNat < (BitVec.ofNat 32 text.length).toNat :=
      BitVec.lt_def.mp (BitVec.not_le.mp hBehind)
    have hRead : readstr (offset.setWidth 32) n text = copyOut text (offset.setWidth 32)
        (clip (BitVec.ofNat 32 text.length) (offset.setWidth 32) n) := by
      rw [readstr, if_neg hBehind]
      rfl
    rw [hRead]
    have hWithin : offset.toNat % 2 ^ 32 < text.length := by rwa [hSize, hOff] at hIn
    by_cases hBelow : offset.toNat < 2 ^ 32
    · have hSame : offset.toNat % 2 ^ 32 = offset.toNat := Nat.mod_eq_of_lt hBelow
      rw [hSame] at hOff hWithin
      rw [StrReach, if_pos hBelow, or_iff_right (by omega)]
      by_cases hOver : offset.toNat + n.toNat < 2 ^ 32
      · refine iff_of_true (positional_copy hOff ?_ hWithin.le rfl) hOver
        rw [toNat_clip hIn (by rwa [hOff]), hSize, hOff]
      · -- an unclipped count reaches over the end of the text
        rw [clip_wrapped hIn (by rw [hOff]; omega)]
        exact iff_of_false (not_positional_wild (by omega)) hOver
    · -- four gigabytes and more behind, the bytes at the rest of the offset are read
      rw [StrReach, if_neg hBelow]
      exact iff_of_false (not_positional_again (by omega) (clip_pos hIn hPos)) (by omega)

/-! ## cputime -/

/-- After the loop over the columns from `i` on, the buffer has the text as far as the
loop was asked to go. -/
theorem formatTimes_spec (P : ConsPort) (s : Shown) (upto : Int) (count i : Nat) (tmp : List Byte)
    (hLen : tmp.length = NUMSIZE * (i + count)) :
    let r := formatTimes P s upto (List.range' i count) tmp
    r.length = tmp.length ∧ ∀ u : Nat, (u : Int) ≤ upto → r.take u =
      (tmp.take (NUMSIZE * i) ++ (List.range' i count).flatMap fun j => column (cpuMs P s j)).take u := by
  induction count generalizing i tmp with
  | zero =>
    refine ⟨rfl, fun u _ => ?_⟩
    -- no column is left, and the buffer is full
    have hAll : tmp.take (NUMSIZE * i) = tmp := List.take_of_length_le hLen.le
    change tmp.take u = (tmp.take _ ++ []).take u
    rw [List.append_nil, hAll]
  | succ count ih =>
    have hCol : (column (cpuMs P s i)).length = NUMSIZE := by rw [column_eq, length_numText]
    rw [List.range'_succ, formatTimes]
    by_cases hMore : ((NUMSIZE * i : Nat) : Int) < upto
    · rw [if_pos hMore]
      -- this column is stored, and the later ones behind it
      have hRoom : NUMSIZE * i + (column (cpuMs P s i)).length ≤ tmp.length := by
        rw [hCol, hLen, ← Nat.mul_succ]
        exact Nat.mul_le_mul_left _ (by omega)
      have hNext := length_overwrite hRoom
      have hIndex : i + 1 + count = i + (count + 1) := by omega
      have hRest : (overwrite tmp (NUMSIZE * i) (column (cpuMs P s i))).length =
          NUMSIZE * (i + 1 + count) := by
        rw [hNext, hLen, hIndex]
      obtain ⟨hKeeps, hText⟩ := ih (i + 1) _ hRest
      refine ⟨hKeeps.trans hNext, fun u hu => ?_⟩
      have hDone : (overwrite tmp (NUMSIZE * i) (column (cpuMs P s i))).take (NUMSIZE * (i + 1)) =
          tmp.take (NUMSIZE * i) ++ column (cpuMs P s i) := by
        rw [Nat.mul_succ, ← take_overwrite (by omega), hCol]
      rw [hText u hu, hDone, List.flatMap_cons, List.append_assoc]
    · -- the loop ends here, behind what it was asked for
      rw [if_neg hMore]
      refine ⟨rfl, fun u hu => ?_⟩
      have hShort : u ≤ NUMSIZE * i := by omega
      have hFirst : u ≤ (tmp.take (NUMSIZE * i)).length := by
        rw [List.length_take, hLen]
        exact le_min hShort (hShort.trans (Nat.mul_le_mul_left _ (by omega)))
      rw [List.take_append_of_le_length hFirst, List.take_take, Nat.min_eq_left hShort]

/-- The six columns have 72 bytes. -/
theorem length_timesText (P : ConsPort) (s : Shown) : (timesText P s).length = 72 := by
  rw [timesText_eq, length_columns, List.length_map, List.length_range]
  rfl

/-- A sum of small counts is no negative one. -/
theorem toInt_add {k n : Word} (hSum : k.toNat + n.toNat < 2 ^ 31) :
    (k + n).toInt = (k.toNat + n.toNat : Nat) := by
  have hExact : (k + n).toNat = k.toNat + n.toNat := BitVec.toNat_add_of_lt (by omega)
  rw [BitVec.toInt_eq_toNat_of_lt (by omega), hExact]

/-- The sum of two numbers that are not negative can be. -/
theorem toInt_add_wrapped {k n : Word} (hLow : 2 ^ 31 ≤ k.toNat + n.toNat)
    (hHigh : k.toNat + n.toNat < 2 ^ 32) : (k + n).toInt < 0 := by
  have hExact : (k + n).toNat = k.toNat + n.toNat := BitVec.toNat_add_of_lt hHigh
  rw [BitVec.toInt_eq_toNat_cond, if_neg (by omega)]
  omega

/-- The count that the case `Qcputime` goes on with. -/
def clipTime (k n : Word) : Word :=
  if (k + n).toInt > (6 * NUMSIZE : Nat) then BitVec.ofNat 32 (6 * NUMSIZE) - k else n

/-- The count of a read of the times, cut at the end. -/
theorem toNat_clipTime {k n : Word} (hIn : k.toNat < 72) (hSum : k.toNat + n.toNat < 2 ^ 31) :
    (clipTime k n).toNat = min n.toNat (72 - k.toNat) := by
  have hSize : (BitVec.ofNat 32 (6 * NUMSIZE)).toNat = 72 := rfl
  have hBound : ((6 * NUMSIZE : Nat) : Int) = 72 := rfl
  rw [clipTime, toInt_add hSum, hBound]
  by_cases hClip : ((k.toNat + n.toNat : Nat) : Int) > 72
  · rw [if_pos hClip, BitVec.toNat_sub_of_le (BitVec.le_def.mpr (by omega)), hSize]
    omega
  · rw [if_neg hClip]
    omega

/-- A sum that is negative by overflow is not cut. -/
theorem clipTime_wrapped {k n : Word} (hNeg : (k + n).toInt < 0) : clipTime k n = n := by
  refine if_neg ?_
  show ¬ (k + n).toInt > 72
  omega

/-- The three ways of the case: behind the text, within it, and before it. -/
theorem cputime_cases (P : ConsPort) (s : Shown) (tmp : Vector Byte (6 * NUMSIZE)) (k n : Word) :
    (72 ≤ k.toNat ∧ k.toNat < 2 ^ 31 ∧ cputime P s tmp k n = some (0, [])) ∨
    (k.toNat < 72 ∧ cputime P s tmp k n =
      copyOut (formatTimes P s (k + clipTime k n).toInt (List.range 6) tmp.toList) k (clipTime k n)) ∨
    (2 ^ 31 ≤ k.toNat ∧ cputime P s tmp k n = none) := by
  have hWord := k.isLt
  rw [cputime]
  by_cases hSign : k.toNat < 2 ^ 31
  · have hInt : k.toInt = k.toNat := BitVec.toInt_eq_toNat_of_lt (by omega)
    by_cases hBehind : 72 ≤ k.toNat
    · rw [if_pos (by rw [hInt]; exact Int.ofNat_le.mpr hBehind)]
      exact Or.inl ⟨hBehind, hSign, rfl⟩
    -- within the text the position is not negative
    · have hNotNeg : ¬ k.toInt < 0 := by omega
      rw [if_neg (by rw [hInt]; exact fun h => hBehind (Int.ofNat_le.mp h))]
      simp only [if_neg hNotNeg]
      exact Or.inr (Or.inl ⟨by omega, rfl⟩)
  -- the top bit makes the position negative
  · have hInt : k.toInt = k.toNat - (2 ^ 32 : Nat) := by
      rw [BitVec.toInt_eq_toNat_cond, if_neg (by omega)]
    have hNeg : k.toInt < 0 := by omega
    rw [if_neg (by omega)]
    simp only [if_pos hNeg]
    exact Or.inr (Or.inr ⟨by omega, trivial⟩)

/-- The offset of `cputime` is narrowed to a signed number. -/
theorem cputime_exact (P : ConsPort) (s : Shown) (tmp : Vector Byte (6 * NUMSIZE))
    (hPos : 0 < n.toNat) (hCount : n.toNat < 2 ^ 31) :
    Positional (timesText P s) n offset (cputime P s tmp (offset.setWidth 32) n) ↔
      TimeReach 72 n offset := by
  have hLen := length_timesText P s
  have hOff : (offset.setWidth 32).toNat = offset.toNat % 2 ^ 32 := BitVec.toNat_setWidth ..
  generalize offset.setWidth 32 = k at hOff
  -- the buffer is as long as the text, however far it has been filled
  have hTmp : tmp.toList.length = 72 := tmp.length_toList
  have hFill := fun upto : Int => formatTimes_spec P s upto 6 0 tmp.toList hTmp
  rw [← List.range_eq_range'] at hFill
  rcases cputime_cases P s tmp k n with ⟨hBehind, hSign, hRead⟩ | ⟨hWithin, hRead⟩ | ⟨hBefore, hRead⟩
  · -- the narrowed offset lies behind the text, and so does the offset
    rw [hRead]
    refine iff_of_true (positional_end (by omega)) ?_
    rw [TimeReach]
    split <;> omega
  · rw [hRead]
    by_cases hOver : k.toNat + n.toNat < 2 ^ 31
    · have hClip := toNat_clipTime hWithin hOver
      -- as much is formatted as the clipped count reaches
      have hUpto := toInt_add (k := k) (n := clipTime k n) (by omega)
      obtain ⟨-, hText⟩ := hFill (k + clipTime k n).toInt
      have hHas := hText (k.toNat + (clipTime k n).toNat) hUpto.ge
      rw [TimeReach]
      by_cases hBelow : offset.toNat < 2 ^ 31
      · have hSame : k.toNat = offset.toNat := by omega
        rw [if_pos hBelow]
        refine iff_of_true (positional_copy hSame (by omega) (by omega) ?_) (by omega)
        rw [← hSame, hHas]
        rfl
      · -- the offset lies behind the text, but its rest within it
        rw [if_neg hBelow]
        exact iff_of_false (not_positional_again (by omega) (by omega)) (by omega)
    · -- the sum is negative: nothing is clipped, and the count reaches over the end
      rw [clipTime_wrapped (toInt_add_wrapped (by omega) (by omega))]
      refine iff_of_false (not_positional_wild ?_) ?_
      · rw [(hFill (k + n).toInt).1, hTmp]
        omega
      · rw [TimeReach]
        split <;> omega
  · -- a negative position, before the buffer
    rw [hRead]
    refine iff_of_false ?_ ?_
    · rw [Positional]
      simp
    · rw [TimeReach]
      split <;> omega

end

/-! ## The files -/

/-- Where a read of a file returns the bytes from its offset on. -/
def InReach (P : ConsPort) (s : Shown) (f : TextFile) (n : Word) (offset : BitVec 64) : Prop :=
  match f with
  | .Qcputime => TimeReach (f.text P s).length n offset
  | _ => StrReach (f.text P s).length n offset

def somePort : ConsPort where
  TReal   := 2
  TK2MS l := l * 10
  READSTR := 1000
  devtab  := [{ dc := 0x63, name := ⟨ascii "cons", by decide⟩ }]
  fits    := by decide
  chars   := by decide

def someone : Shown where
  time       := .replicate 6 1
  ticks      := 5
  pid        := 7
  parentpid  := 1
  pgrpid     := 1
  user       := ⟨ascii "glenda", by decide⟩
  eve        := ⟨ascii "glenda", by decide⟩
  hostdomain := ⟨[], by decide⟩
  sysname    := none
  npage      := 0
  upages     := 0
  palloc     := (0, 0)
  mainmem    := (0, 0)
  imagmem    := (0, 0)
  sysstat    := ⟨[], by decide⟩

end Glendum
