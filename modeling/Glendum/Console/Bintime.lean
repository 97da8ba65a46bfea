import Glendum.Arch.Fastclock
import Glendum.Lib.ByteOrder
import Glendum.Lib.Bytes

/-!
# Glendum — the file bintime

A read of `bintime` gives the time, the ticks of the fast clock and their rate, as many of the
three as the read has room for; a write sets the time, trims it, or sets the rate. All numbers
go through `vlong2le` and `le2vlong`, which copy bytes through the table that `uvorder` is in
memory. The comment of the source calls the numbers little-endian; on a little-endian machine
the table counts down, and they come out the other way around.

The port code that keeps the time is here what `todget` and `fastticks` answer, and the calls of
`todset` and `todsetfreq`. The owner's permission is checked before.

* `le2obj_be`, `obj2le_be` — both copies, and big-endian numbers;
* `littleEndian_iff` — when the comment is right about a number;
* `bintime_exact` — what a read gives, and what a write does.
-/

namespace Glendum

open Machine

/-! ## The copies -/

def uvorder : Uvlong := 0x0001020304050607

def order : Word := 0x00010203

/-- `(uchar*)&order` as a table of places. -/
def places {w : Nat} (order : BitVec w) : List Nat :=
  (leBytes (w / 8) order.toNat).map BitVec.toNat

/-- The object gets its value, and the pointer into the buffer moves on; `none` when the buffer has
too few bytes. -/
def le2obj {w : Nat} (order dst : BitVec w) (f : List Byte) : Option (BitVec w × List Byte) :=
  let n := w / 8
  if f.length < n then none else
  let t := scatter (places order) (f.take n) (leBytes n dst.toNat)
  some (BitVec.ofNat w (ofLeBytes t), f.drop n)

/-- The buffer with the bytes of the object at its start. -/
def obj2le {w : Nat} (order : BitVec w) (t : List Byte) (obj : BitVec w) : Option (List Byte) :=
  let n := w / 8
  if t.length < n then none else
  some (gather (places order) (leBytes n obj.toNat) ++ t.drop n)

def le2vlong (dst : Uvlong) (f : List Byte) : Option (Uvlong × List Byte) := le2obj uvorder dst f

def vlong2le (t : List Byte) (obj : Uvlong) : Option (List Byte) := obj2le uvorder t obj

def le2long (dst : Word) (f : List Byte) : Option (Word × List Byte) := le2obj order dst f

def long2le (t : List Byte) (obj : Word) : Option (List Byte) := obj2le order t obj

/-! ## Reads and writes -/

/-- What `todget` and `fastticks` answer, and the variable `fasthz`. -/
structure Tod where
  nsec   : Uvlong
  ticks  : Uvlong
  hz     : Uvlong
  fasthz : Uvlong

def Tod.rated (c : Tod) : Tod := if c.fasthz = 0 then { c with fasthz := c.hz } else c

/-- A number of the answer, if the read is for `pos + 8` bytes or more; `r` is what is counted
and the buffer. -/
def putPart (pos : Nat) (v : Uvlong) (r : Nat × List Byte) : Option (Nat × List Byte) :=
  if pos + 8 ≤ r.2.length then
    (vlong2le (r.2.drop pos) v).map fun t => (r.1 + 8, r.2.take pos ++ t)
  else some r

/-- `n` is the length of the buffer. -/
def readbintime (c : Tod) (buf : List Byte) : Option (Nat × List Byte × Tod) :=
  let c := c.rated
  ((putPart 16 c.fasthz (0, buf)).bind fun r =>
    (putPart 8 c.ticks r).bind fun r => putPart 0 c.nsec r).map fun r => (r.1, r.2, c)

inductive TodCall
  | todset (t delta : Uvlong) (n : Word)
  | todsetfreq (f : Uvlong)

inductive BintimeErr
  /-- the first byte of an empty buffer, or bytes behind its end -/
  | outside
  | Ebadtimectl

/-- `delta` and `period` are what is on the stack before. -/
def writebintime (c : Tod) (delta : Uvlong) (period : Word) :
    List Byte → Except BintimeErr (Nat × Option TodCall × Tod)
  | [] => .error .outside
  | cmd :: p =>
    let n := p.length
    if cmd = ch 'n' then
      if n < 8 then .error .Ebadtimectl else
      match le2vlong delta p with
      | none => .error .outside
      | some (delta, _) => .ok (n, some (.todset delta 0 0), c)
    else if cmd = ch 'd' then
      if n < 12 then .error .Ebadtimectl else
      match le2vlong delta p with
      | none => .error .outside
      | some (delta, p) =>
        match le2long period p with
        | none => .error .outside
        | some (period, _) => .ok (n, some (.todset (-1) delta period), c)
    else if cmd = ch 'f' then
      if n < 8 then .error .Ebadtimectl else
      match le2vlong c.fasthz p with
      | none => .error .outside
      | some (f, _) => .ok (n, some (.todsetfreq f), { c with fasthz := f })
    else .ok (n, none, c)

/-! ## Messages -/

/-- What a process can ask for. -/
inductive TimeMsg
  | set (t : Uvlong)
  | trim (delta : Uvlong) (period : Word)
  | rate (f : Uvlong)

namespace TimeMsg

def encode : TimeMsg → List Byte
  | set t => ch 'n' :: beBytes 8 t.toNat
  | trim delta period => ch 'd' :: (beBytes 8 delta.toNat ++ beBytes 4 period.toNat)
  | rate f => ch 'f' :: beBytes 8 f.toNat

def call : TimeMsg → TodCall
  | set t => .todset t 0 0
  | trim delta period => .todset (-1) delta period
  | rate f => .todsetfreq f

def after (c : Tod) : TimeMsg → Tod
  | rate f => { c with fasthz := f }
  | _ => c

end TimeMsg

/-! ## Big-endian numbers -/

section

variable {w n : Nat} {c c' : Tod} {buf rest : List Byte}

/-- The tables of the byte order are both in reverse. -/
theorem places_uvorder : places uvorder = (List.range 8).reverse := by decide

theorem places_order : places order = (List.range 4).reverse := by decide

/-- So numbers are written with their first byte first. -/
theorem obj2le_be {order : BitVec w} (hTable : places order = (List.range (w / 8)).reverse)
    (v : BitVec w) {old : List Byte} (hOld : old.length = w / 8) :
    obj2le order (old ++ rest) v = some (beBytes (w / 8) v.toNat ++ rest) := by
  have hGather := gather_reverse (leBytes (w / 8) v.toNat)
  rw [length_leBytes] at hGather
  unfold obj2le
  rw [if_neg (by rw [List.length_append]; omega), hTable, hGather, ← hOld, List.drop_left]
  rfl

/-- And they are read so. -/
theorem le2obj_eq {order : BitVec w} (hTable : places order = (List.range (w / 8)).reverse)
    (dst : BitVec w) {f : List Byte} (hLen : f.length = w / 8) :
    le2obj order dst (f ++ rest) = some (BitVec.ofNat w (ofLeBytes f.reverse), rest) := by
  -- nothing is left of what the object was before
  have hScatter : scatter (places order) f (leBytes (w / 8) dst.toNat) = f.reverse := by
    rw [hTable, ← hLen]
    exact scatter_reverse (length_leBytes _ _)
  unfold le2obj
  rw [if_neg (by rw [List.length_append]; omega), ← hLen, List.take_left, List.drop_left, hLen, hScatter]

/-- A number is read as it was written. -/
theorem le2obj_be {order : BitVec w} (hTable : places order = (List.range (w / 8)).reverse)
    (hWidth : 8 * (w / 8) = w) (dst v : BitVec w) :
    le2obj order dst (beBytes (w / 8) v.toNat ++ rest) = some (v, rest) := by
  have hLt : v.toNat < 256 ^ (w / 8) := by
    have hBits : 256 ^ (w / 8) = 2 ^ w := by
      rw [show 256 = 2 ^ 8 from rfl, ← Nat.pow_mul, hWidth]
    rw [hBits]
    exact v.isLt
  rw [le2obj_eq hTable dst (length_beBytes _ _), beBytes, List.reverse_reverse, ofLeBytes_leBytes hLt,
    BitVec.ofNat_toNat, BitVec.setWidth_eq]

/-- Any eight bytes, or four, are a number. -/
theorem exists_be (hWidth : 8 * (w / 8) = w) {p : List Byte} (hLong : w / 8 ≤ p.length) :
    ∃ (v : BitVec w) (rest : List Byte), p = beBytes (w / 8) v.toNat ++ rest := by
  have hLen : (p.take (w / 8)).reverse.length = w / 8 := by
    rw [List.length_reverse, List.length_take]
    omega
  have hLt : ofLeBytes (p.take (w / 8)).reverse < 2 ^ w := by
    have hBound := ofLeBytes_lt (p.take (w / 8)).reverse
    rwa [hLen, show 256 = 2 ^ 8 from rfl, ← Nat.pow_mul, hWidth] at hBound
  refine ⟨BitVec.ofNat w (ofLeBytes (p.take (w / 8)).reverse), p.drop (w / 8), ?_⟩
  have hBytes := leBytes_ofLeBytes (p.take (w / 8)).reverse
  rw [hLen] at hBytes
  rw [BitVec.toNat_ofNat, Nat.mod_eq_of_lt hLt, beBytes, hBytes, List.reverse_reverse, List.take_append_drop]

/-- A number that is written as `vlong2le` does and read as the comment says. -/
theorem littleEndian_iff (v : Uvlong) :
    BitVec.ofNat 64 (ofLeBytes (beBytes 8 v.toNat)) = v ↔ (leBytes 8 v.toNat).reverse = leBytes 8 v.toNat := by
  have hLt : ofLeBytes (beBytes 8 v.toNat) < 2 ^ 64 := by
    have hBound := ofLeBytes_lt (beBytes 8 v.toNat)
    rwa [length_beBytes] at hBound
  have hBack := leBytes_ofLeBytes (beBytes 8 v.toNat)
  rw [length_beBytes] at hBack
  constructor
  · intro h
    have hValue := congrArg BitVec.toNat h
    rw [BitVec.toNat_ofNat, Nat.mod_eq_of_lt hLt] at hValue
    rw [hValue] at hBack
    exact hBack.symm
  · intro h
    rw [beBytes, h, ofLeBytes_leBytes v.isLt, BitVec.ofNat_toNat, BitVec.setWidth_eq]

/-! ## What a write does -/

theorem le2vlong_be (dst v : Uvlong) : le2vlong dst (beBytes 8 v.toNat ++ rest) = some (v, rest) :=
  le2obj_be places_uvorder rfl dst v

theorem le2long_be (dst v : Word) : le2long dst (beBytes 4 v.toNat ++ rest) = some (v, rest) :=
  le2obj_be places_order rfl dst v

/-- A message that is written is understood. -/
theorem writebintime_encode (delta : Uvlong) (period : Word) (m : TimeMsg) :
    writebintime c delta period (m.encode ++ rest) =
      .ok ((m.encode ++ rest).length - 1, some m.call, m.after c) := by
  -- the letter picks the branch, and the fields are read back where they were put
  cases m with
  | set t =>
    show writebintime c delta period (ch 'n' :: (beBytes 8 t.toNat ++ rest)) = _
    dsimp only [writebintime]
    rw [if_pos rfl, if_neg (by simp), le2vlong_be]
    rfl
  | trim d p =>
    show writebintime c delta period (ch 'd' :: (beBytes 8 d.toNat ++ beBytes 4 p.toNat ++ rest)) = _
    dsimp only [writebintime]
    rw [if_neg (by decide), if_pos rfl, if_neg (by simp; omega), List.append_assoc, le2vlong_be]
    dsimp only
    rw [le2long_be, ← List.append_assoc]
    rfl
  | rate f =>
    show writebintime c delta period (ch 'f' :: (beBytes 8 f.toNat ++ rest)) = _
    dsimp only [writebintime]
    rw [if_neg (by decide), if_neg (by decide), if_pos rfl, if_neg (by simp), le2vlong_be]
    rfl

/-- Nothing else is done, and what is behind a message is ignored. -/
theorem writebintime_ok_iff (delta : Uvlong) (period : Word) {n : Nat} {call : TodCall} :
    writebintime c delta period buf = .ok (n, some call, c') ↔
      ∃ (m : TimeMsg) (rest : List Byte),
        buf = m.encode ++ rest ∧ n = buf.length - 1 ∧ call = m.call ∧ c' = m.after c := by
  constructor
  · intro h
    -- the message is found from the command, and then the call is that of the message
    have hMessage : ∃ (m : TimeMsg) (rest : List Byte), buf = m.encode ++ rest := by
      cases buf with
      | nil => cases h
      | cons cmd p =>
        dsimp only [writebintime] at h
        by_cases hSet : cmd = ch 'n'
        · rw [if_pos hSet] at h
          by_cases hShort : p.length < 8
          · rw [if_pos hShort] at h
            cases h
          · obtain ⟨t, rest, rfl⟩ := exists_be (w := 64) rfl (Nat.not_lt.mp hShort)
            exact ⟨.set t, rest, by rw [hSet]; rfl⟩
        · rw [if_neg hSet] at h
          by_cases hTrim : cmd = ch 'd'
          · rw [if_pos hTrim] at h
            by_cases hShort : p.length < 12
            · rw [if_pos hShort] at h
              cases h
            · have hLong := Nat.not_lt.mp hShort
              obtain ⟨d, tail, rfl⟩ := exists_be (w := 64) rfl (show 8 ≤ p.length by omega)
              rw [List.length_append, length_beBytes] at hLong
              obtain ⟨e, rest, rfl⟩ := exists_be (w := 32) rfl (show 4 ≤ tail.length by omega)
              exact ⟨.trim d e, rest, by rw [hTrim, ← List.append_assoc]; rfl⟩
          · rw [if_neg hTrim] at h
            by_cases hRate : cmd = ch 'f'
            · rw [if_pos hRate] at h
              by_cases hShort : p.length < 8
              · rw [if_pos hShort] at h
                cases h
              · obtain ⟨f, rest, rfl⟩ := exists_be (w := 64) rfl (Nat.not_lt.mp hShort)
                exact ⟨.rate f, rest, by rw [hRate]; rfl⟩
            · rw [if_neg hRate] at h
              cases h
    obtain ⟨m, rest, rfl⟩ := hMessage
    rw [writebintime_encode] at h
    injection h with hResult
    injection hResult with hCount hRest
    injection hRest with hCall hAfter
    exact ⟨m, rest, rfl, hCount.symm, (Option.some.inj hCall).symm, hAfter.symm⟩
  · rintro ⟨m, rest, rfl, rfl, rfl, rfl⟩
    exact writebintime_encode delta period m

/-! ## What a read gives -/

/-- The first `k` of the three numbers. -/
def Tod.answer (c : Tod) (k : Nat) : List Byte :=
  ([c.nsec, c.ticks, c.fasthz].take k).flatMap fun v => beBytes 8 v.toNat

/-- A number that fits the buffer is put there. -/
theorem putPart_some (pre : List Byte) {old : List Byte} (post : List Byte) {pos : Nat} (v : Uvlong) (i : Nat)
    (hPre : pre.length = pos) (hOld : old.length = 8) :
    putPart pos v (i, pre ++ (old ++ post)) = some (i + 8, pre ++ (beBytes 8 v.toNat ++ post)) := by
  have hRoom : pos + 8 ≤ (pre ++ (old ++ post)).length := by
    rw [List.length_append, List.length_append]
    omega
  have hPut : vlong2le (old ++ post) v = some (beBytes 8 v.toNat ++ post) :=
    obj2le_be places_uvorder v hOld
  unfold putPart
  rw [if_pos hRoom, ← hPre, List.drop_left, List.take_left, hPut]
  rfl

/-- One that does not fit is left out. -/
theorem putPart_none {pos : Nat} (v : Uvlong) (i : Nat) (h : buf.length < pos + 8) :
    putPart pos v (i, buf) = some (i, buf) := if_neg (Nat.not_le.mpr h)

/-- The place of a number. -/
theorem exists_part (h : 8 ≤ buf.length) : ∃ old rest : List Byte, buf = old ++ rest ∧ old.length = 8 :=
  ⟨buf.take 8, buf.drop 8, (List.take_append_drop 8 buf).symm, by rw [List.length_take]; omega⟩

/-- The numbers are written from the last one that fits on. -/
theorem readbintime_eq (c : Tod) (buf : List Byte) :
    let k := min 3 (buf.length / 8)
    readbintime c buf = some (8 * k, c.rated.answer k ++ buf.drop (8 * k), c.rated) := by
  intro k
  unfold readbintime
  generalize c.rated = c
  dsimp only
  by_cases h8 : buf.length < 8
  · have hk : k = 0 := by omega
    rw [putPart_none _ _ (by omega), Option.bind_some, putPart_none _ _ (by omega), Option.bind_some,
      putPart_none _ _ (by omega), hk]
    rfl
  -- the buffer is cut where the numbers go, one piece at a time
  obtain ⟨a, tail, rfl, ha⟩ := exists_part (Nat.not_lt.mp h8)
  by_cases h16 : tail.length < 8
  · have hLen : (a ++ tail).length = 8 + tail.length := by rw [List.length_append, ha]
    have hk : k = 1 := by omega
    have hFirst := putPart_some [] tail c.nsec 0 rfl ha
    rw [putPart_none _ _ (by omega), Option.bind_some, putPart_none _ _ (by omega), Option.bind_some, hk]
    refine (congrArg _ hFirst).trans ?_
    rw [List.drop_left' (by omega)]
    rfl
  obtain ⟨b, tail, rfl, hb⟩ := exists_part (Nat.not_lt.mp h16)
  by_cases h24 : tail.length < 8
  · have hLen : (a ++ (b ++ tail)).length = 16 + tail.length := by
      rw [List.length_append, List.length_append, ha, hb]
      omega
    have hk : k = 2 := by omega
    have hSecond := putPart_some a tail c.ticks 0 ha hb
    have hFirst := putPart_some [] (beBytes 8 c.ticks.toNat ++ tail) c.nsec 8 rfl ha
    have hRest : (a ++ (b ++ tail)).drop 16 = tail := by
      rw [← List.append_assoc]
      exact List.drop_left' (by rw [List.length_append, ha, hb])
    rw [putPart_none _ _ (by omega), Option.bind_some, hSecond, Option.bind_some, hk]
    refine (congrArg _ hFirst).trans ?_
    rw [hRest, Tod.answer]
    simp only [List.take_succ_cons, List.take_zero, List.flatMap_cons, List.flatMap_nil, List.append_nil,
      List.append_assoc, List.nil_append]
    rfl
  · obtain ⟨d, tail, rfl, hd⟩ := exists_part (Nat.not_lt.mp h24)
    have hLen : (a ++ (b ++ (d ++ tail))).length = 24 + tail.length := by
      rw [List.length_append, List.length_append, List.length_append, ha, hb, hd]
      omega
    have hk : k = 3 := by omega
    have hThird := putPart_some (a ++ b) tail c.fasthz 0
      (by rw [List.length_append, ha, hb]) hd
    have hSecond := putPart_some a (beBytes 8 c.fasthz.toNat ++ tail) c.ticks 8 ha hb
    have hFirst := putPart_some []
      (beBytes 8 c.ticks.toNat ++ (beBytes 8 c.fasthz.toNat ++ tail)) c.nsec 16 rfl ha
    rw [List.append_assoc, List.append_assoc] at hThird
    have hRest : (a ++ (b ++ (d ++ tail))).drop 24 = tail := by
      rw [← List.append_assoc, ← List.append_assoc]
      exact List.drop_left' (by rw [List.length_append, List.length_append, ha, hb, hd])
    rw [hThird, Option.bind_some, hSecond, Option.bind_some, hk]
    refine (congrArg _ hFirst).trans ?_
    rw [hRest, Tod.answer]
    simp only [List.take_succ_cons, List.take_zero, List.flatMap_cons, List.flatMap_nil, List.append_nil,
      List.append_assoc, List.nil_append]
    rfl

/-- A read gives as many numbers as it has room for, and leaves what is behind them; a write makes
the call that its message asks for, or none. -/
theorem bintime_exact (c : Tod) (delta : Uvlong) (period : Word) (buf : List Byte) :
    (∃ k, k = min 3 (buf.length / 8) ∧
      readbintime c buf = some (8 * k, c.rated.answer k ++ buf.drop (8 * k), c.rated)) ∧
    ∀ n call c', writebintime c delta period buf = .ok (n, some call, c') ↔
      ∃ (m : TimeMsg) (rest : List Byte),
        buf = m.encode ++ rest ∧ n = buf.length - 1 ∧ call = m.call ∧ c' = m.after c :=
  ⟨⟨_, rfl, readbintime_eq c buf⟩, fun _ _ _ => writebintime_ok_iff delta period⟩

end

end Glendum
