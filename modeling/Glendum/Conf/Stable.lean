import Glendum.Conf.Isa
import Glendum.Lib.Trace

/-!
# Glendum — what the boot configuration says later

`getconf` is consulted for as long as the kernel runs, `shutdown` included. The strings
it answers with stand in `confbuf`, which `isaconfig` cuts up and `writeconf` writes
over.

* `joinLoop_spec` — the text that `writeconf` makes of the environment;
* `Table.write`, `write_strings` — the texts that leave the strings as they were;
* `conf_stable_iff` — the runs in which the configuration stays the same;
* `conf_forgets` — what `isaconfig` and `writeconf` make it forget.
-/

namespace Glendum

open Machine

/-! ## writeconf -/

/-- A variable of the configuration environment. -/
structure EnvVar where
  name  : CStr
  value : CStr
  named : name.1 ≠ []

/-- What `getconfenv` returns for these variables: the names and values, each with its
NUL, and a NUL behind them. -/
def getconfenv (env : List EnvVar) : List Byte :=
  env.flatMap (fun v => v.name.1 ++ 0 :: (v.value.1 ++ [0])) ++ [0]

/-- Convert to `name=value\n` format. -/
def joinLoop : Nat → List Byte → Nat → List Byte × Nat
  | 0, p, q => (p, q)
  | fuel + 1, p, q =>
    if p.getD q 0 = 0 then (p, q)
    else
      let q := q + (str p q).length
      let p := p.set q (ch '=')
      let q := q + (str p q).length
      let p := p.set q (ch '\n')
      joinLoop fuel p (q + 1)

/-- `memset(BOOTLINE, 0, BOOTLINELEN); memmove(BOOTARGS, t, n);` -/
def BootConf.write (c : BootConf) (t : List Byte) : BootConf :=
  { c with
    confbuf := overwrite (overwrite c.confbuf 0 (List.replicate BOOTLINELEN 0)) BOOTARGS t }

/-- `env` is what `getconfenv` finds; it fails when there is no memory for the copy. -/
def BootConf.writeconf (c : BootConf) (env : Except String (List EnvVar)) :
    Except String BootConf := do
  let p := getconfenv (← env)
  let r := joinLoop p.length p 0
  let n := r.2 + 1
  if n ≥ BOOTARGSLEN then throw "kernel configuration too large"
  else return c.write (r.1.take n)

/-- The variables in `name=value\n` format. -/
def confText (env : List EnvVar) : List Byte :=
  env.flatMap fun v => v.name.1 ++ ch '=' :: (v.value.1 ++ [ch '\n'])

theorem joinLoop_spec (env : List EnvVar) :
    ∀ (pre : List Byte) (fuel : Nat), env.length < fuel →
      joinLoop fuel (pre ++ getconfenv env) pre.length =
        (pre ++ (confText env ++ [0]), (pre ++ confText env).length) := by
  induction env with
  | nil =>
    intro pre fuel hFuel
    obtain ⟨fuel, rfl⟩ : ∃ n, fuel = n + 1 := ⟨fuel - 1, by simp at hFuel; omega⟩
    have hEnd : (pre ++ getconfenv []).getD pre.length 0 = 0 := getD_mid rfl
    rw [joinLoop, if_pos hEnd]
    simp [getconfenv, confText]
  | cons v env ih =>
    intro pre fuel hFuel
    obtain ⟨fuel, rfl⟩ : ∃ n, fuel = n + 1 := ⟨fuel - 1, by simp at hFuel; omega⟩
    rw [List.length_cons] at hFuel
    obtain ⟨⟨name, hName⟩, ⟨value, hValue⟩, hNamed⟩ := v
    generalize hRest : getconfenv env = rest at ih
    have hShape : pre ++ getconfenv (⟨⟨name, hName⟩, ⟨value, hValue⟩, hNamed⟩ :: env) =
        pre ++ (name ++ 0 :: (value ++ 0 :: rest)) := by
      rw [← hRest]
      simp [getconfenv]
    rw [hShape, joinLoop]
    -- the name is there, up to its NUL
    have hAt : StrAt (pre ++ (name ++ 0 :: (value ++ 0 :: rest))) pre.length name :=
      StrAt.of_eq hName
    have hGo : (pre ++ (name ++ 0 :: (value ++ 0 :: rest))).getD pre.length 0 ≠ 0 := by
      cases name with
      | nil => exact absurd rfl hNamed
      | cons x name =>
        rw [hAt.getD_cons]
        exact fun h0 => hName (by simp [h0])
    -- with the `=` the string goes on to the NUL of the value
    have hEq : (pre ++ (name ++ 0 :: (value ++ 0 :: rest))).set (pre.length + name.length) (ch '=') =
        (pre ++ name) ++ (ch '=' :: value ++ 0 :: rest) := by
      rw [← List.append_assoc, set_mid (by rw [List.length_append])]
      rfl
    have hJoined : StrAt ((pre ++ name) ++ (ch '=' :: value ++ 0 :: rest)) (pre ++ name).length
        (ch '=' :: value) := by
      refine StrAt.of_eq fun hMem => ?_
      rcases List.mem_cons.mp hMem with h0 | hMem
      · revert h0
        decide
      · exact hValue hMem
    rw [List.length_append] at hJoined
    have hNewline : ((pre ++ name) ++ (ch '=' :: value ++ 0 :: rest)).set
        (pre.length + name.length + (ch '=' :: value).length) (ch '\n') =
        (pre ++ (name ++ ch '=' :: (value ++ [ch '\n']))) ++ rest := by
      rw [← List.append_assoc, set_mid (by simp only [List.length_append])]
      simp
    have hLength : pre.length + name.length + (ch '=' :: value).length + 1 =
        (pre ++ (name ++ ch '=' :: (value ++ [ch '\n']))).length := by
      simp only [List.length_append, List.length_cons, List.length_nil]
      omega
    simp only [if_neg hGo, hAt.str, hEq, hJoined.str, hNewline, hLength]
    rw [ih _ fuel (by omega)]
    simp [confText]

/-- The variables and the NUL behind them take a byte each, at least. -/
theorem length_lt_getconfenv (env : List EnvVar) : env.length < (getconfenv env).length := by
  rw [getconfenv, List.length_append, List.length_singleton]
  refine Nat.lt_succ_of_le ?_
  induction env with
  | nil => exact Nat.zero_le _
  | cons v env ih =>
    rw [List.flatMap_cons, List.length_append, List.length_cons, List.length_append, List.length_cons]
    omega

/-- What `writeconf` writes, when it does. -/
theorem writeconf_eq (c : BootConf) (env : List EnvVar) :
    c.writeconf (.ok env) =
      if (confText env).length + 1 ≥ BOOTARGSLEN then .error "kernel configuration too large"
      else .ok (c.write (confText env ++ [0])) := by
  have hLoop := joinLoop_spec env [] _ (length_lt_getconfenv env)
  rw [List.nil_append, List.nil_append, List.nil_append] at hLoop
  -- `n` counts the NUL behind the text
  have hTake : (confText env ++ [0]).take ((confText env).length + 1) = confText env ++ [0] :=
    List.take_of_length_le (by rw [List.length_append, List.length_singleton])
  rw [BootConf.writeconf]
  change (if (joinLoop (getconfenv env).length (getconfenv env) 0).2 + 1 ≥ BOOTARGSLEN then _
    else _) = _
  rw [show joinLoop (getconfenv env).length (getconfenv env) 0 =
    (confText env ++ [0], (confText env).length) from hLoop, hTake]
  rfl

/-! ## What is written over -/

/-- The text, written from `BOOTARGS` on, has every byte of the string at `p` that it
reaches, and its NUL, where it stands. -/
def Untouched (buf t : List Byte) (p : Nat) : Prop :=
  ∀ j ≤ (str buf p).length, ∀ b ∈ t[p + j - BOOTARGS]?, buf[p + j]? = some b

/-- The text leaves the names and the values. -/
def BootConf.Spares (c : BootConf) (t : List Byte) : Prop :=
  ∀ e ∈ c.confs, Untouched c.confbuf t e.1 ∧ Untouched c.confbuf t e.2

section

variable {c : BootConf} {es : List ConfEntry} {t : List Byte}

theorem length_bootline (hSize : c.confbuf.length = CONFSIZE) :
    (overwrite c.confbuf 0 (List.replicate BOOTLINELEN 0)).length = CONFSIZE := by
  rw [length_overwrite, hSize]
  rw [List.length_replicate, hSize]
  decide

theorem length_write (hSize : c.confbuf.length = CONFSIZE) (hFits : t.length < BOOTARGSLEN) :
    (c.write t).confbuf.length = CONFSIZE := by
  have hArgs : BOOTARGS + BOOTARGSLEN ≤ CONFSIZE := by decide
  have hLine := length_bootline hSize
  rw [BootConf.write, length_overwrite (by omega), hLine]

/-- A byte that `getconf` may read. -/
theorem getElem?_write (hSize : c.confbuf.length = CONFSIZE) {i : Nat} (hi : BOOTARGS ≤ i) :
    (c.write t).confbuf[i]? = (t[i - BOOTARGS]?).or c.confbuf[i]? := by
  have hArgs : BOOTARGS ≤ CONFSIZE := by decide
  have hLine := length_bootline hSize
  -- the `memset` of the boot line ends below
  have hSame : (overwrite c.confbuf 0 (List.replicate BOOTLINELEN 0))[i]? = c.confbuf[i]? := by
    rw [getElem?_overwrite (Nat.zero_le _), if_neg]
    rw [List.length_replicate, Nat.zero_add]
    exact fun hIn => absurd hIn.2 (Nat.not_lt.mpr hi)
  rw [BootConf.write, getElem?_overwrite (by omega), hSame]
  split
  · next hIn => rw [List.getElem?_eq_getElem (by omega), Option.some_or]
  · next hOut =>
    have hPast : t.length ≤ i - BOOTARGS := by omega
    rw [List.getElem?_eq_none hPast, Option.none_or]

/-- A string stays where it is when the text has its bytes there. -/
theorem strAt_write (hSize : c.confbuf.length = CONFSIZE) (hFits : t.length < BOOTARGSLEN) {p : Nat}
    {s : List Byte} (h : StrAt c.confbuf p s) (hp : BOOTARGS ≤ p) :
    StrAt (c.write t).confbuf p s ↔ Untouched c.confbuf t p := by
  rw [Untouched, h.str]
  constructor
  · intro h' j hj b hb
    have hText := SameText.of_strAt h h' (by rw [hSize, length_write hSize hFits])
    rw [hText.same (p + j) (by omega) (by omega), getElem?_write hSize (by omega),
      Option.mem_def.mp hb, Option.some_or]
  · intro hBytes
    refine h.congr fun j hj => ?_
    rw [getElem?_write hSize (by omega)]
    -- a byte that the text does not reach, or one that it has
    cases hb : t[p + j - BOOTARGS]? with
    | none => exact Option.none_or
    | some b => exact (hBytes j hj b hb).symm

theorem Table.above (h : Table c es) {e : ConfEntry} (he : e ∈ es) :
    BOOTARGS ≤ e.1.1 ∧ BOOTARGS ≤ e.2.1 :=
  ⟨h.strs.above e.1 (List.mem_flatMap.mpr ⟨e, he, by simp [ConfEntry.strings]⟩),
    h.strs.above e.2 (List.mem_flatMap.mpr ⟨e, he, by simp [ConfEntry.strings]⟩)⟩

/-- A text that leaves the strings. -/
theorem Table.write (h : Table c es) (hSize : c.confbuf.length = CONFSIZE)
    (hFits : t.length < BOOTARGSLEN) (hSpares : c.Spares t) : Table (c.write t) es where
  confs := h.confs
  strs := by
    refine ⟨fun a ha => ?_, h.strs.above, h.strs.apart⟩
    obtain ⟨e, he, hIn⟩ := List.mem_flatMap.mp ha
    have hEntry : ConfEntry.offsets e ∈ c.confs := by
      rw [h.confs]
      exact List.mem_map_of_mem he
    obtain ⟨hName, hValue⟩ := hSpares _ hEntry
    simp only [ConfEntry.strings, List.mem_cons, List.not_mem_nil, or_false] at hIn
    -- the name of the entry, or its value
    rcases hIn with rfl | rfl
    · exact (strAt_write hSize hFits (h.name he) (h.above he).1).mpr hName
    · exact (strAt_write hSize hFits (h.value he) (h.above he).2).mpr hValue

/-- The strings stay as they are under no other text. -/
theorem write_strings (h : Table c es) (hSize : c.confbuf.length = CONFSIZE)
    (hFits : t.length < BOOTARGSLEN) (hSame : (c.write t).strings = c.strings) : c.Spares t := by
  rw [BootConf.strings, BootConf.strings, show (c.write t).confs = c.confs from rfl,
    List.map_inj_left] at hSame
  -- the same string is followed by its NUL, as long as there is a byte
  have hKept : ∀ {p : Nat} {s : List Byte}, StrAt c.confbuf p s → BOOTARGS ≤ p →
      str (c.write t).confbuf p = str c.confbuf p → Untouched c.confbuf t p := by
    intro p s hAt hp hStr
    rw [hAt.str] at hStr
    have hIn : p + s.length < (c.write t).confbuf.length := by
      rw [length_write hSize hFits, ← hSize]
      exact hAt.lt_length
    exact (strAt_write hSize hFits hAt hp).mp (StrAt.of_str hStr (List.getElem?_eq_getElem hIn))
  intro e he
  have hPair := hSame e he
  rw [h.confs] at he
  obtain ⟨a, ha, rfl⟩ := List.mem_map.mp he
  exact ⟨hKept (h.name ha) (h.above ha).1 (congrArg Prod.fst hPair),
    hKept (h.value ha) (h.above ha).2 (congrArg Prod.snd hPair)⟩

end

/-! ## Runs -/

/-- The calls that use the configuration once `options` has set it up. -/
inductive ConfOp where
  | isaconfig (cls : CStr) (ctlrno : Int) (isa : ISAConf)
  | getconf (name : CStr)
  | writeconf (env : Except String (List EnvVar))

/-- A call of `writeconf` that fails leaves the configuration. -/
def BootConf.step (c : BootConf) : ConfOp → Option BootConf
  | .isaconfig cls ctlrno isa => some (c.isaconfig cls ctlrno isa).1
  | .getconf _ => some c
  | .writeconf env =>
    match c.writeconf env with
    | .error _ => some c
    | .ok c' => some c'

/-- The calls that leave the strings of the configuration as they are. -/
def BootConf.Keeps (c : BootConf) : ConfOp → Prop
  | .isaconfig cls ctlrno _ => c.IsaWhole cls ctlrno
  | .getconf _ => True
  | .writeconf (.error _) => True
  | .writeconf (.ok env) =>
    (confText env).length + 1 < BOOTARGSLEN → c.Spares (confText env ++ [0])

/-- The configuration says what it said before: every name and value in the tables,
every answer of `getconf`, every answer of `isaconfig`. -/
structure Stable (c c' : BootConf) : Prop where
  strings   : c'.strings = c.strings
  getconf   : ∀ name : CStr, c'.getconfStr name.1 = c.getconfStr name.1
  isaconfig : ∀ cls ctlrno isa, c'.isaAnswer cls ctlrno isa = c.isaAnswer cls ctlrno isa

/-- The strings of the tables stand in the buffer. -/
structure Intact (es : List ConfEntry) (c : BootConf) : Prop where
  table : Table c es
  size  : c.confbuf.length = CONFSIZE

section

variable {c c' : BootConf} {es : List ConfEntry}

theorem Intact.stable (h : Intact es c) (h' : Intact es c') : Stable c c' where
  strings := by rw [h.table.strings, h'.table.strings]
  getconf name := by rw [h.table.getconf name.2, h'.table.getconf name.2]
  isaconfig := isaAnswer_congr h.table h'.table (by rw [h.size, h'.size])

/-- What a call does that finds the configuration intact. -/
theorem Intact.step (h : Intact es c) (o : ConfOp) (hStep : c.step o = some c') :
    (c.Keeps o → Intact es c') ∧ (¬ c.Keeps o → c'.strings ≠ c.strings) := by
  cases o with
  | isaconfig cls ctlrno isa =>
    obtain rfl : (c.isaconfig cls ctlrno isa).1 = c' := Option.some.inj hStep
    refine ⟨fun hWhole => ?_, fun hNot => isaconfig_strings h.table hNot isa⟩
    rw [isaconfig_whole h.table hWhole]
    exact h
  | getconf name =>
    obtain rfl : c = c' := Option.some.inj hStep
    exact ⟨fun _ => h, fun hNot => absurd trivial hNot⟩
  | writeconf env =>
    rcases env with e | env
    · obtain rfl : c = c' := Option.some.inj hStep
      exact ⟨fun _ => h, fun hNot => absurd trivial hNot⟩
    · rw [BootConf.step, writeconf_eq] at hStep
      rw [BootConf.Keeps]
      by_cases hLarge : (confText env).length + 1 ≥ BOOTARGSLEN
      · -- the call is refused
        rw [if_pos hLarge] at hStep
        obtain rfl : c = c' := Option.some.inj hStep
        exact ⟨fun _ => h, fun hNot => absurd (fun hFits => absurd hLarge (by omega)) hNot⟩
      · rw [if_neg hLarge] at hStep
        obtain rfl : c.write (confText env ++ [0]) = c' := Option.some.inj hStep
        have hFits : (confText env ++ [0]).length < BOOTARGSLEN := by
          rw [List.length_append, List.length_singleton]
          omega
        have hLow : (confText env).length + 1 < BOOTARGSLEN := Nat.lt_of_not_le hLarge
        refine ⟨fun hSpares => ⟨h.table.write h.size hFits (hSpares hLow), ?_⟩, fun hNot hSame => ?_⟩
        · exact length_write h.size hFits
        · exact hNot fun _ => write_strings h.table h.size hFits hSame

end

theorem step_total (c : BootConf) (o : ConfOp) : ∃ c', c.step o = some c' := by
  cases o with
  | isaconfig cls ctlrno isa => exact ⟨_, rfl⟩
  | getconf name => exact ⟨_, rfl⟩
  | writeconf env =>
    rw [BootConf.step]
    split <;> exact ⟨_, rfl⟩

/-- The runs in which the configuration stays as `options` has parsed it are those whose
calls all leave the strings. -/
theorem conf_stable_iff (text : CStr) (ops : List ConfOp) :
    Trace.Throughout BootConf.step (Stable (options text.1)) (options text.1) ops ↔
      Trace.Always BootConf.step BootConf.Keeps (options text.1) ops := by
  obtain ⟨es, hTable, -⟩ := options_spec text.2
  have hStart : Intact es (options text.1) := ⟨hTable, length_options text.1⟩
  obtain ⟨c, hRun⟩ := Trace.run_total step_total (options text.1) ops
  refine Trace.throughout_iff_always (fun c o c' h hKeeps hStep => (h.step o hStep).1 hKeeps)
    (fun c h => hStart.stable h) (fun c o c' h hNot hStep hStable => ?_) hStart hRun
  exact (h.step o hStep).2 hNot (hStable.strings.trans (hStart.stable h).strings.symm)

/-! ## Runs that forget -/

/-- A comment of 63 bytes, and an entry for a controller behind it. -/
def etherConf : List Byte := List.replicate 63 (ch '#') ++ ascii "\nether0=type=a irq=5\r\n"

/-- A comment of 63 bytes, and a flag that `shutdown` asks for. -/
def debugConf : List Byte := List.replicate 63 (ch '#') ++ ascii "\n*debug=1\r\n"

def ether : CStr := ⟨ascii "ether", by decide⟩

/-- After one call of `isaconfig` the options behind the first one are lost; after
`writeconf` with no variables the flag is. -/
theorem conf_forgets :
    ((options etherConf).getconfStr (ascii "ether0") = some (ascii "type=a irq=5") ∧
      ((options etherConf).isaconfig ether 0 {}).1.getconfStr (ascii "ether0") =
        some (ascii "type=a") ∧
      ((options etherConf).isaconfig ether 0 {}).1.isaAnswer ether 0 {} ≠
        (options etherConf).isaAnswer ether 0 {}) ∧
    (options debugConf).getconfStr (ascii "*debug") = some (ascii "1") ∧
      ((options debugConf).step (.writeconf (.ok []))).map (fun c => c.getconfStr (ascii "*debug")) =
        some none := by
  decide +kernel

end Glendum
