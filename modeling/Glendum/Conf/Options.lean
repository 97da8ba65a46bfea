import Glendum.Lib.Fields
import Glendum.Lib.Window
import Mathlib.Data.List.Find

/-!
# Glendum — the boot configuration

The configuration text comes from the host (`host_getconf`) into the static buffer
`confbuf`. `options` parses it there: it takes out the carriage returns, cuts the text
into lines and each line at its first `=`, and keeps pointers to the names and the
values. `getconf` compares a name with each of these names in turn.

* `parseArgs_spec` — what stands in the buffer and in the tables after `options`, for
  any text at `BOOTARGS`;
* `Table.strings`, `Table.getconf` — what the tables and `getconf` then yield;
* `options_spec` — the same for a text of the host.
-/

namespace Glendum

open Machine

def CONFSIZE : Nat := 4096
def BOOTLINELEN : Nat := 64
/-- Offsets in `confbuf` stand for the pointers. -/
def BOOTARGS : Nat := BOOTLINELEN
def BOOTARGSLEN : Nat := 4096 - 0x200 - BOOTLINELEN
def MAXCONF : Nat := 64

/-- `confbuf`, and the pairs `confname[i]`, `confval[i]` for `i` below `nconf`. -/
structure BootConf where
  confbuf : List Byte
  confs   : List (Nat × Nat)

/-! ## options -/

/-- `strncpy` from a string: what it writes. -/
def strncpy (n : Nat) (s : List Byte) : List Byte := s.take n ++ List.replicate (n - s.length) 0

/-- `getconf` of `umhost.c`; `plan9ini` is the host's configuration. -/
def hostGetconf (plan9ini buf : List Byte) (size : Nat) : List Byte :=
  overwrite buf 0 (strncpy (size - 1) plan9ini)

/-- The loop over the text: `p` and `q` are offsets. -/
def stripLoop : Nat → List Byte → Nat → Nat → List Byte × Nat
  | 0, buf, p, _ => (buf, p)
  | fuel + 1, buf, p, q =>
    let c := buf.getD q 0
    if c = 0 then (buf, p)
    else if c = ch '\r' then stripLoop fuel buf p (q + 1)
    else
      let buf := if c = ch '\t' then buf.set q (ch ' ') else buf
      stripLoop fuel (buf.set p (buf.getD q 0)) (p + 1) (q + 1)

/-- Strip out `\r`, change `\t` to blank. -/
def strip (buf : List Byte) (cp : Nat) : List Byte :=
  let r := stripLoop buf.length buf cp cp
  r.1.set r.2 0

/-- One round of the loop over the lines. -/
def parseLine (s : List Byte × List (Nat × Nat)) (line : Nat) : List Byte × List (Nat × Nat) :=
  if s.1.getD line 0 = ch '#' then s
  else match strchr s.1 line (ch '=') with
    | none => s
    | some cp => (s.1.set cp 0, s.2 ++ [(line, cp + 1)])

/-- `options` once `confbuf` holds the configuration. -/
def parseArgs (confbuf : List Byte) : BootConf :=
  let buf := confbuf.set (BOOTARGS + (BOOTARGSLEN - 1)) 0
  let r := getfields (strip buf BOOTARGS) BOOTARGS MAXCONF (ch '\n')
  let s := r.2.foldl parseLine (r.1, [])
  { confbuf := s.1, confs := s.2 }

def options (plan9ini : List Byte) : BootConf :=
  parseArgs (hostGetconf plan9ini (List.replicate CONFSIZE 0) CONFSIZE)

/-! ## getconf -/

/-- A `char` made lower case; `char` is signed. -/
def foldCase (c : Byte) : Int :=
  if (ch 'A').toInt ≤ c.toInt ∧ c.toInt ≤ (ch 'Z').toInt then
    (ch 'a').toInt + (c.toInt - (ch 'A').toInt)
  else c.toInt

def cistrcmp : List Byte → List Byte → Int
  | a, [] => foldCase (a.headD 0) - foldCase 0
  | a, b :: bs =>
    let ac := foldCase (a.headD 0) - foldCase b
    if ac ≠ 0 then ac else if foldCase b = 0 then 0 else cistrcmp a.tail bs

def BootConf.getconf (c : BootConf) (name : List Byte) : Option Nat :=
  (c.confs.find? fun e => cistrcmp (str c.confbuf e.1) name == 0).map Prod.snd

/-- The string that the answer of `getconf` points to. -/
def BootConf.getconfStr (c : BootConf) (name : List Byte) : Option (List Byte) :=
  (c.getconf name).map (str c.confbuf)

/-- The names and values as strings. -/
def BootConf.strings (c : BootConf) : List (List Byte × List Byte) :=
  c.confs.map fun e => (str c.confbuf e.1, str c.confbuf e.2)

/-! ## What a configuration says -/

/-- The text without carriage returns, and with blanks for tabs. -/
def clean (text : List Byte) : List Byte :=
  (text.filter (· ≠ ch '\r')).map fun c => if c = ch '\t' then ch ' ' else c

/-- The name and the value that a line sets, if it sets one. -/
def setting (line : List Byte) : Option (List Byte × List Byte) :=
  if line.head? = some (ch '#') then none
  else if line.contains (ch '=') then
    some (line.takeWhile (· != ch '='), (line.dropWhile (· != ch '=')).tail)
  else none

def lowerByte (c : Byte) : Byte := if ch 'A' ≤ c ∧ c ≤ ch 'Z' then c + 0x20 else c

/-- The value of the first setting of a name, in whatever case it is written. -/
def lookup (l : List (List Byte × List Byte)) (name : List Byte) : Option (List Byte) :=
  (l.find? fun e => e.1.map lowerByte == name.map lowerByte).map Prod.snd

/-- The line is cleaned byte by byte. -/
theorem clean_append (s t : List Byte) : clean (s ++ t) = clean s ++ clean t := by
  simp [clean]

/-- No NUL comes in. -/
theorem clean_nul {s : List Byte} (h : (0 : Byte) ∉ s) : (0 : Byte) ∉ clean s := by
  intro hMem
  obtain ⟨c, hc, hZero⟩ := List.mem_map.mp hMem
  split at hZero
  · revert hZero
    decide
  · subst hZero
    exact h (List.mem_filter.mp hc).1

/-- A line with a name, an `=` and a value is a setting. -/
theorem setting_mid {n v : List Byte} (hHead : (n ++ ch '=' :: v).head? ≠ some (ch '#'))
    (hName : ch '=' ∉ n) : setting (n ++ ch '=' :: v) = some (n, v) := by
  have hAll := all_ne_of_notMem hName
  rw [setting, if_neg hHead, if_pos (by simp), List.takeWhile_append_of_pos hAll,
    List.dropWhile_append_of_pos hAll, List.takeWhile_cons_of_neg (by simp),
    List.dropWhile_cons_of_neg (by simp), List.append_nil, List.tail_cons]

/-- A line without an `=` is none. -/
theorem setting_none {s : List Byte} (h : ch '=' ∉ s) : setting s = none := by
  have hContains : ¬ s.contains (ch '=') = true := by simpa using h
  rw [setting, if_neg hContains, ite_self]

/-! ## Case -/

/-- The comparison of names folds the case of a byte. -/
theorem foldCase_eq (c : Byte) : foldCase c = (lowerByte c).toInt := by
  revert c
  decide +kernel

/-- Two bytes are taken for the same when they are, but for their case. -/
theorem foldCase_inj {a b : Byte} : foldCase a = foldCase b ↔ lowerByte a = lowerByte b := by
  rw [foldCase_eq, foldCase_eq, BitVec.toInt_inj]

/-- The NUL has no other case. -/
theorem lowerByte_eq_zero (c : Byte) : lowerByte c = 0 ↔ c = 0 := by
  revert c
  decide +kernel

/-- The comparison answers 0 for strings that differ in case only. -/
theorem cistrcmp_eq_zero {a b : List Byte} (ha : (0 : Byte) ∉ a) (hb : (0 : Byte) ∉ b) :
    cistrcmp a b = 0 ↔ a.map lowerByte = b.map lowerByte := by
  have hZero : lowerByte 0 = 0 := (lowerByte_eq_zero 0).mpr rfl
  induction b generalizing a with
  | nil =>
    rw [cistrcmp, Int.sub_eq_zero, foldCase_inj, hZero, lowerByte_eq_zero, List.map_nil,
      List.map_eq_nil_iff]
    cases a with
    | nil => simp
    | cons x a =>
      rw [List.mem_cons, not_or] at ha
      simpa using Ne.symm ha.1
  | cons y b ih =>
    rw [List.mem_cons, not_or] at hb
    have hEnd : foldCase y ≠ 0 := by
      rw [show (0 : Int) = foldCase 0 from rfl, Ne, foldCase_inj, hZero, lowerByte_eq_zero]
      exact Ne.symm hb.1
    cases a with
    | nil =>
      -- the first string ends before the second one
      have hDiff : foldCase 0 - foldCase y ≠ 0 := by
        rw [show foldCase 0 = 0 from rfl]
        omega
      simp only [cistrcmp, List.headD_nil, ne_eq, hDiff, not_false_eq_true, if_true, List.map_nil,
        List.map_cons, reduceCtorEq]
    | cons x a =>
      rw [List.mem_cons, not_or] at ha
      simp only [cistrcmp, List.headD_cons, List.tail_cons, ne_eq, Int.sub_eq_zero, foldCase_inj,
        List.map_cons, List.cons.injEq, if_neg hEnd]
      -- the first bytes decide, unless they agree but for case
      by_cases hxy : lowerByte x = lowerByte y
      · simp only [hxy, not_true_eq_false, if_false, true_and]
        exact ih ha.2 hb.2
      · simp only [hxy, not_false_eq_true, if_true, false_and, Int.sub_eq_zero,
          foldCase_inj]

/-! ## The text in the buffer -/

/-- A byte in the middle is replaced. -/
theorem set_mid {pre post : List Byte} {x : Byte} {i : Nat} (hi : i = pre.length) (v : Byte) :
    (pre ++ x :: post).set i v = pre ++ v :: post := by
  subst hi
  rw [List.set_append_right _ _ (Nat.le_refl _), Nat.sub_self, List.set_cons_zero]

/-- A byte in the middle is read. -/
theorem getD_mid {pre post : List Byte} {x : Byte} {i : Nat} (hi : i = pre.length) :
    (pre ++ x :: post).getD i 0 = x := by
  subst hi
  rw [List.getD_eq_getElem?_getD, List.getElem?_append_right (Nat.le_refl _), Nat.sub_self,
    List.getElem?_cons_zero, Option.getD_some]

/-- The loop has written the clean text of what it has read to the front; between its two
pointers the bytes are old. -/
theorem stripLoop_spec :
    ∀ (r pre junk post : List Byte) (fuel : Nat), (0 : Byte) ∉ r → r.length < fuel →
      ∃ junk', stripLoop fuel (pre ++ (junk ++ (r ++ 0 :: post))) pre.length
          (pre.length + junk.length) =
        (pre ++ clean r ++ (junk' ++ 0 :: post), (pre ++ clean r).length) := by
  intro r
  induction r with
  | nil =>
    intro pre junk post fuel _ hFuel
    obtain ⟨fuel, rfl⟩ : ∃ n, fuel = n + 1 := ⟨fuel - 1, by simp at hFuel; omega⟩
    have hEnd : (pre ++ (junk ++ 0 :: post)).getD (pre.length + junk.length) 0 = 0 := by
      rw [← List.append_assoc]
      exact getD_mid (by rw [List.length_append])
    refine ⟨junk, ?_⟩
    rw [List.nil_append, stripLoop]
    simp only [hEnd, if_true]
    simp [clean]
  | cons c r ih =>
    intro pre junk post fuel hNul hFuel
    obtain ⟨fuel, rfl⟩ : ∃ n, fuel = n + 1 := ⟨fuel - 1, by simp at hFuel; omega⟩
    rw [List.mem_cons, not_or] at hNul
    have hFuel' : r.length < fuel := by
      rw [List.length_cons] at hFuel
      omega
    have hRead : ∀ x, ((pre ++ junk) ++ x :: (r ++ 0 :: post)).getD (pre.length + junk.length) 0 = x :=
      fun x => getD_mid (by rw [List.length_append])
    have hShape : pre ++ (junk ++ (c :: r ++ 0 :: post)) = (pre ++ junk) ++ c :: (r ++ 0 :: post) := by
      simp
    rw [hShape, stripLoop]
    simp only [hRead, if_neg (Ne.symm hNul.1)]
    by_cases hCr : c = ch '\r'
    · -- the byte stays behind
      rw [if_pos hCr]
      obtain ⟨junk', hLoop⟩ := ih pre (junk ++ [c]) post fuel hNul.2 hFuel'
      refine ⟨junk', ?_⟩
      have hClean : clean (c :: r) = clean r := by simp [clean, hCr]
      rw [hClean, ← hLoop]
      simp [Nat.add_assoc]
    · rw [if_neg hCr]
      generalize hOut : (if c = ch '\t' then ch ' ' else c) = c'
      have hClean : clean (c :: r) = c' :: clean r := by
        simp [clean, hCr, hOut]
      -- the byte as it is read back, a blank for a tab
      have hBlank : (if c = ch '\t' then
            ((pre ++ junk) ++ c :: (r ++ 0 :: post)).set (pre.length + junk.length) (ch ' ')
          else (pre ++ junk) ++ c :: (r ++ 0 :: post)) = (pre ++ junk) ++ c' :: (r ++ 0 :: post) := by
        subst hOut
        split
        · exact set_mid (by rw [List.length_append]) _
        · rfl
      rw [hBlank, hRead, hClean]
      -- it is written to the place of the first old byte, if there is one
      cases junk with
      | nil =>
        obtain ⟨junk', hLoop⟩ := ih (pre ++ [c']) [] post fuel hNul.2 hFuel'
        refine ⟨junk', ?_⟩
        rw [List.append_nil, set_mid rfl]
        simpa using hLoop
      | cons j js =>
        obtain ⟨junk', hLoop⟩ := ih (pre ++ [c']) (js ++ [c']) post fuel hNul.2 hFuel'
        refine ⟨junk', ?_⟩
        rw [List.append_assoc pre, List.cons_append, set_mid rfl]
        simp only [List.append_assoc, List.length_append, List.length_cons,
          List.length_nil, List.cons_append, List.nil_append] at hLoop ⊢
        rw [show pre.length + (js.length + 1) + 1 = pre.length + (0 + 1) + (js.length + (0 + 1)) by
          omega]
        exact hLoop

/-- `options` strips the text in place. -/
theorem strip_spec {buf s : List Byte} {cp : Nat} (h : StrAt buf cp s) :
    StrAt (strip buf cp) cp (clean s) := by
  obtain ⟨post, hDrop⟩ := h.drop_eq
  have hLength := h.lt_length
  have hCp : (buf.take cp).length = cp := List.length_take_of_le (by omega)
  have hBuf : buf = buf.take cp ++ ([] ++ (s ++ 0 :: post)) := by
    rw [List.nil_append, ← hDrop, List.take_append_drop]
  obtain ⟨junk', hLoop⟩ := stripLoop_spec s (buf.take cp) [] post buf.length h.clean (by omega)
  rw [← hBuf, hCp, List.length_nil, Nat.add_zero] at hLoop
  -- the closing NUL lands on what the loop left behind, or on the old NUL
  obtain ⟨tail, hTail⟩ : ∃ tail, (strip buf cp) = buf.take cp ++ (clean s ++ 0 :: tail) := by
    rw [strip, hLoop]
    cases junk' with
    | nil => exact ⟨post, by rw [List.nil_append, set_mid rfl, List.append_assoc]⟩
    | cons j js => exact ⟨js ++ 0 :: post, by rw [List.cons_append, set_mid rfl, List.append_assoc]⟩
  rw [hTail]
  have hAt : StrAt (buf.take cp ++ (clean s ++ 0 :: tail)) (buf.take cp).length (clean s) :=
    StrAt.of_eq (clean_nul h.clean)
  rwa [hCp] at hAt

/-! ## The tables -/

/-- A name and a value with the offsets where they stand. -/
abbrev ConfEntry := (Nat × List Byte) × (Nat × List Byte)

def ConfEntry.strings (e : ConfEntry) : List (Nat × List Byte) := [e.1, e.2]
def ConfEntry.offsets (e : ConfEntry) : Nat × Nat := (e.1.1, e.2.1)
def ConfEntry.texts (e : ConfEntry) : List Byte × List Byte := (e.1.2, e.2.2)

/-- The tables point to these names and values, which do not touch one another. -/
structure Table (c : BootConf) (es : List ConfEntry) : Prop where
  confs : c.confs = es.map ConfEntry.offsets
  strs  : Strs c.confbuf BOOTARGS (es.flatMap ConfEntry.strings)

/-- The loop over the lines `l` adds the entries of those that set something. -/
def Parses (lo : Nat) (l : List (Nat × List Byte)) (buf : List Byte) (es : List ConfEntry) : Prop :=
  ∃ es', Strs ((l.map Prod.fst).foldl parseLine (buf, es.map ConfEntry.offsets)).1 lo
        ((es ++ es').flatMap ConfEntry.strings) ∧
    ((l.map Prod.fst).foldl parseLine (buf, es.map ConfEntry.offsets)).2 =
      (es ++ es').map ConfEntry.offsets ∧
    es'.map ConfEntry.texts = (l.map Prod.snd).filterMap setting

/-- The loop over the lines makes the entries of the table. -/
theorem parseLines_spec {lo : Nat} (l : List (Nat × List Byte)) :
    ∀ (buf : List Byte) (es : List ConfEntry), Strs buf lo (es.flatMap ConfEntry.strings ++ l) →
      Parses lo l buf es := by
  induction l with
  | nil =>
    intro buf es hStrs
    refine ⟨[], ?_, by simp, rfl⟩
    rwa [List.append_nil] at hStrs ⊢
  | cons a l ih =>
    obtain ⟨off, s⟩ := a
    intro buf es hStrs
    have hHere := hStrs.strs (off, s) (List.mem_append_right _ List.mem_cons_self)
    -- a line that sets nothing leaves the buffer alone
    have hSkip : setting s = none →
        parseLine (buf, es.map ConfEntry.offsets) off = (buf, es.map ConfEntry.offsets) →
        Parses lo ((off, s) :: l) buf es := by
      intro hNone hRound
      obtain ⟨es', hL, hConfs, hSet⟩ := ih buf es (hStrs.sublist (by simp))
      rw [Parses, List.map_cons, List.foldl_cons, hRound]
      exact ⟨es', hL, hConfs, by rw [hSet, List.map_cons, List.filterMap_cons_none hNone]⟩
    by_cases hComment : s.head? = some (ch '#')
    · -- a comment
      have hByte : buf.getD off 0 = ch '#' := by
        cases s with
        | nil => simp at hComment
        | cons c s => exact hHere.getD_cons.trans (Option.some.inj hComment)
      refine hSkip ?_ ?_
      · rw [setting, if_pos hComment]
      · rw [parseLine, if_pos hByte]
    · have hByte : buf.getD off 0 ≠ ch '#' := by
        cases s with
        | nil =>
          rw [hHere.getD_nil]
          decide
        | cons c s =>
          rw [hHere.getD_cons]
          exact fun hc => hComment (congrArg some hc)
      by_cases hEq : ch '=' ∈ s
      · -- the line is cut in two at its first `=`
        obtain ⟨n, v, rfl, hName⟩ := List.eq_append_cons_of_mem hEq
        have hRound : parseLine (buf, es.map ConfEntry.offsets) off =
            (buf.set (off + n.length) 0,
              (es ++ [((off, n), (off + n.length + 1, v))]).map ConfEntry.offsets) := by
          simp only [parseLine, if_neg hByte, hHere.strchr_mid hName, List.map_append, List.map_cons,
            List.map_nil, ConfEntry.offsets]
        have hNext : Strs (buf.set (off + n.length) 0) lo
            ((es ++ [((off, n), (off + n.length + 1, v))]).flatMap ConfEntry.strings ++ l) := by
          have hCut := hStrs.cut
          simpa [ConfEntry.strings] using hCut
        obtain ⟨es', hL, hConfs, hSet⟩ := ih _ _ hNext
        rw [Parses, List.map_cons, List.foldl_cons, hRound]
        refine ⟨((off, n), (off + n.length + 1, v)) :: es', ?_, ?_, ?_⟩
        · simpa using hL
        · simpa using hConfs
        · rw [List.map_cons, List.map_cons, hSet,
            List.filterMap_cons_some (setting_mid hComment hName)]
          rfl
      · -- no name, no value
        refine hSkip (setting_none hEq) ?_
        rw [parseLine, if_neg hByte, hHere.strchr_none hEq]

/-- `options` on any text at `BOOTARGS`, of which it takes one byte less than
`BOOTARGSLEN`: the tables hold what the fields of the clean text set. -/
theorem parseArgs_spec {confbuf s : List Byte}
    (h : StrAt (confbuf.set (BOOTARGS + (BOOTARGSLEN - 1)) 0) BOOTARGS s) :
    ∃ es, Table (parseArgs confbuf) es ∧ es.map (ConfEntry.texts) =
      (fields (ch '\n') MAXCONF (clean s)).filterMap setting := by
  have hSep : ch '\n' ≠ 0 := by decide
  obtain ⟨l, hStrs, hArgs, hFields⟩ := getfields_spec MAXCONF hSep (strip_spec h)
  obtain ⟨es, hEnd, hConfs, hSet⟩ := parseLines_spec l _ [] hStrs
  refine ⟨es, ⟨?_, ?_⟩, ?_⟩
  · simp only [parseArgs, hArgs]
    exact hConfs
  · simp only [parseArgs, hArgs]
    exact hEnd
  · rw [hSet, hFields]

/-! ## The text of the host -/

/-- The buffer of the configuration: the text, and zeros behind it. -/
theorem hostGetconf_eq (text : List Byte) :
    hostGetconf text (List.replicate CONFSIZE 0) CONFSIZE =
      text.take 4095 ++ List.replicate (CONFSIZE - min text.length 4095) 0 := by
  have hLen : (strncpy (CONFSIZE - 1) text).length = 4095 := by
    rw [strncpy, List.length_append, List.length_take, List.length_replicate]
    unfold CONFSIZE
    omega
  rw [hostGetconf, overwrite, List.take_zero, List.nil_append, hLen, strncpy, List.drop_replicate,
    List.append_assoc, List.replicate_append_replicate]
  congr 2
  unfold CONFSIZE
  omega

/-- What `options` finds at `BOOTARGS`: the first 64 bytes of the text are not part of
it. -/
theorem hostGetconf_strAt {text : List Byte} (hNul : (0 : Byte) ∉ text) :
    StrAt ((hostGetconf text (List.replicate CONFSIZE 0) CONFSIZE).set
      (BOOTARGS + (BOOTARGSLEN - 1)) 0) BOOTARGS ((text.drop BOOTLINELEN).take (BOOTARGSLEN - 1)) := by
  have hEnd : BOOTARGS + (BOOTARGSLEN - 1) = 3583 := rfl
  have hLen : ((text.drop BOOTLINELEN).take (BOOTARGSLEN - 1)).length = min 3519 (text.length - 64) := by
    rw [List.length_take, List.length_drop]
    rfl
  rw [hEnd, hostGetconf_eq]
  refine ⟨?_, ?_, fun hMem => hNul (List.mem_of_mem_drop (List.mem_of_mem_take hMem))⟩
  · intro j hj
    rw [hLen] at hj
    rw [show BOOTARGS = 64 from rfl, List.getElem?_set_ne (by omega), List.getElem?_append_left (by
        rw [List.length_take]; omega), List.getElem?_take_of_lt (by omega),
      List.getElem?_take_of_lt (by rw [show BOOTARGSLEN - 1 = 3519 from rfl]; omega),
      List.getElem?_drop]
    rfl
  · rw [hLen, show BOOTARGS = 64 from rfl]
    by_cases hLong : 3583 ≤ text.length
    · -- the byte that `options` has set
      rw [show 64 + min 3519 (text.length - 64) = 3583 by omega]
      refine List.getElem?_set_self ?_
      rw [List.length_append, List.length_take, List.length_replicate]
      unfold CONFSIZE
      omega
    · -- the padding of `strncpy`
      rw [List.getElem?_set_ne (by omega), List.getElem?_append_right (by rw [List.length_take]; omega),
        List.getElem?_replicate_of_lt]
      rw [List.length_take]
      unfold CONFSIZE
      omega

/-- `options` on a text of the host. -/
theorem options_spec {text : List Byte} (hNul : (0 : Byte) ∉ text) :
    ∃ es, Table (options text) es ∧ es.map ConfEntry.texts =
      (fields (ch '\n') MAXCONF
        (clean ((text.drop BOOTLINELEN).take (BOOTARGSLEN - 1)))).filterMap setting :=
  parseArgs_spec (hostGetconf_strAt hNul)

/-- The buffer keeps its length. -/
theorem length_stripLoop (fuel : Nat) (buf : List Byte) (p q : Nat) :
    (stripLoop fuel buf p q).1.length = buf.length := by
  induction fuel generalizing buf p q with
  | zero => rfl
  | succ fuel ih =>
    rw [stripLoop]
    dsimp only
    split
    · rfl
    · split
      · exact ih ..
      · -- one store for the byte, one more for a tab
        rw [ih, List.length_set]
        split
        · exact List.length_set
        · rfl

/-- The strip of a line keeps it too. -/
theorem length_strip (buf : List Byte) (cp : Nat) : (strip buf cp).length = buf.length := by
  rw [strip, List.length_set, length_stripLoop]

/-- And so do all lines. -/
theorem length_parseLines (l : List Nat) (s : List Byte × List (Nat × Nat)) :
    (l.foldl parseLine s).1.length = s.1.length := by
  induction l generalizing s with
  | nil => rfl
  | cons line l ih =>
    rw [List.foldl_cons, ih, parseLine]
    split
    · rfl
    · split
      · rfl
      · exact List.length_set

/-- The buffer stays of its size. -/
theorem length_options (text : List Byte) : (options text).confbuf.length = CONFSIZE := by
  rw [options, parseArgs]
  dsimp only
  rw [length_parseLines, length_getfields, length_strip, List.length_set, hostGetconf_eq,
    List.length_append, List.length_take, List.length_replicate]
  unfold CONFSIZE
  omega

/-! ## What the tables yield -/

section

variable {c : BootConf} {es : List ConfEntry}

/-- A name of the table is in the buffer. -/
theorem Table.name (h : Table c es) {e : ConfEntry} (he : e ∈ es) : StrAt c.confbuf e.1.1 e.1.2 :=
  h.strs.strs e.1 (List.mem_flatMap.mpr ⟨e, he, by simp [ConfEntry.strings]⟩)

/-- So is a value. -/
theorem Table.value (h : Table c es) {e : ConfEntry} (he : e ∈ es) : StrAt c.confbuf e.2.1 e.2.2 :=
  h.strs.strs e.2 (List.mem_flatMap.mpr ⟨e, he, by simp [ConfEntry.strings]⟩)

/-- The texts of the table are those of its entries. -/
theorem Table.strings (h : Table c es) : c.strings = es.map ConfEntry.texts := by
  rw [BootConf.strings, h.confs, List.map_map]
  refine List.map_congr_left fun e he => ?_
  exact Prod.ext (h.name he).str (h.value he).str

/-- The entry that `getconf` finds. -/
theorem Table.find (h : Table c es) {name : List Byte} (hName : (0 : Byte) ∉ name) :
    c.confs.find? (fun e => cistrcmp (str c.confbuf e.1) name == 0) =
      (es.find? fun e => e.1.2.map lowerByte == name.map lowerByte).map ConfEntry.offsets := by
  have hSame : ∀ e ∈ es, (cistrcmp (str c.confbuf (ConfEntry.offsets e).1) name == 0) =
      (e.1.2.map lowerByte == name.map lowerByte) := by
    intro e he
    have hAt := h.name he
    rw [ConfEntry.offsets, hAt.str, Bool.eq_iff_iff, beq_iff_eq, beq_iff_eq,
      cistrcmp_eq_zero hAt.clean hName]
  rw [h.confs, List.find?_map]
  exact congrArg _ (List.find?_congr hSame)

/-- `getconf` finds the first entry of the name. -/
theorem Table.getconf (h : Table c es) {name : List Byte} (hName : (0 : Byte) ∉ name) :
    c.getconfStr name = lookup (es.map ConfEntry.texts) name := by
  rw [BootConf.getconfStr, BootConf.getconf, h.find hName, lookup, List.find?_map]
  change _ = ((es.find? fun e => e.1.2.map lowerByte == name.map lowerByte).map ConfEntry.texts).map Prod.snd
  cases hFind : es.find? fun e => e.1.2.map lowerByte == name.map lowerByte with
  | none => rfl
  | some e => exact congrArg some (h.value (List.mem_of_find?_eq_some hFind)).str

end

end Glendum
