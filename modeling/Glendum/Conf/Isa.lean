import Glendum.Conf.Options
import Glendum.Lib.Tokenize

/-!
# Glendum — isaconfig

`isaconfig` looks up the configuration of a controller and cuts its value into words,
in the place in `confbuf` where the value stands; the words are the options of the
controller, some of which set a number.

* `isaconfig_whole` — a value of at most one plain word is left as it is;
* `isaconfig_strings` — these are the only ones, so the calls that leave the strings of
  the configuration as they were are those;
* `isaAnswer_congr` — what a call answers depends on the strings only.
-/

namespace Glendum

open Machine

def NISAOPT : Nat := 8

/-- `opt` are the entries `opt[i]` for `i` below `nopt`; a `type` of `none` points to an
empty string. -/
structure ISAConf where
  type : Option Nat := none
  port : Word := 0
  irq  : Word := 0
  dma  : Word := 0
  mem  : Word := 0
  size : Word := 0
  freq : Word := 0
  opt  : List Nat := []
deriving DecidableEq

def cistrncmp : Nat → List Byte → List Byte → Int
  | 0, _, _ => 0
  | n + 1, a, b =>
    let ac := foldCase (a.headD 0) - foldCase (b.headD 0)
    if ac ≠ 0 then ac else if foldCase (b.headD 0) = 0 then 0 else cistrncmp n a.tail b.tail

/-! ## strtoul -/

def isspace (c : Byte) : Bool := [0x20, 0x09, 0x0A, 0x0B, 0x0C, 0x0D].contains c

/-- The value of a digit, of any base. -/
def digitValue (c : Byte) : Option Nat :=
  if ch '0' ≤ c ∧ c ≤ ch '9' then some (c.toNat - (ch '0').toNat)
  else if ch 'a' ≤ c ∧ c ≤ ch 'z' then some (c.toNat - (ch 'a').toNat + 10)
  else if ch 'A' ≤ c ∧ c ≤ ch 'Z' then some (c.toNat - (ch 'A').toNat + 10)
  else none

/-- The number that the digits from the start of `s` on stand for. -/
def readDigits (base : Nat) : Nat → List Byte → Nat
  | n, [] => n
  | n, c :: s =>
    match digitValue c with
    | none => n
    | some v => if v < base then readDigits base (n * base + v) s else n

/-- The base of a number and the rest of it. -/
def numberBase (s : List Byte) : Nat × List Byte :=
  if s.headD 0 ≠ ch '0' then (10, s)
  else if s.tail.headD 0 = ch 'x' ∨ s.tail.headD 0 = ch 'X' then (16, s.drop 2)
  else (8, s)

/-- `strtoul(s, &p, 0)`. -/
def strtoul (s : List Byte) : Word :=
  let s := s.dropWhile isspace
  let neg := s.headD 0 = ch '-'
  let s := if s.headD 0 = ch '-' ∨ s.headD 0 = ch '+' then s.tail else s
  let r := numberBase s
  let n := readDigits r.1 0 r.2
  if n ≥ 2 ^ 32 then 0xFFFFFFFF else if neg then -(BitVec.ofNat 32 n) else BitVec.ofNat 32 n

/-! ## isaconfig -/

/-- One round of the loop over the options. -/
def isaOption (buf : List Byte) (isa : ISAConf) (p : Nat) : ISAConf :=
  let opt := str buf p
  if cistrncmp 5 opt (ascii "type=") = 0 then { isa with type := some (p + 5) }
  else if cistrncmp 5 opt (ascii "port=") = 0 then { isa with port := strtoul (str buf (p + 5)) }
  else if cistrncmp 4 opt (ascii "irq=") = 0 then { isa with irq := strtoul (str buf (p + 4)) }
  else if cistrncmp 4 opt (ascii "dma=") = 0 then { isa with dma := strtoul (str buf (p + 4)) }
  else if cistrncmp 4 opt (ascii "mem=") = 0 then { isa with mem := strtoul (str buf (p + 4)) }
  else if cistrncmp 5 opt (ascii "size=") = 0 then { isa with size := strtoul (str buf (p + 5)) }
  else if cistrncmp 5 opt (ascii "freq=") = 0 then { isa with freq := strtoul (str buf (p + 5)) }
  else isa

/-- `%d` -/
def decimal (n : Int) : List Byte :=
  (if n < 0 then [ch '-'] else []) ++ (Nat.toDigits 10 n.natAbs).map ch

/-- `snprint(cc, sizeof cc, "%s%d", class, ctlrno)`, for a class in ASCII. -/
def isaName (cls : CStr) (ctlrno : Int) : List Byte := (cls.1 ++ decimal ctlrno).take 31

/-- The configuration after the call, and the filled `ISAConf`, unless the call returns 0
and leaves it alone. -/
def BootConf.isaconfig (c : BootConf) (cls : CStr) (ctlrno : Int) (isa : ISAConf) :
    BootConf × Option ISAConf :=
  match c.getconf (isaName cls ctlrno) with
  | none => (c, none)
  | some p =>
    let r := tokenize c.confbuf p NISAOPT
    ({ c with confbuf := r.1 },
      some (r.2.foldl (isaOption r.1) { isa with type := none, opt := r.2 }))

/-- What a call answers, with the strings that the answer points to. -/
def BootConf.isaAnswer (c : BootConf) (cls : CStr) (ctlrno : Int) (isa : ISAConf) :
    Option (ISAConf × Option (List Byte) × List (List Byte)) :=
  let r := c.isaconfig cls ctlrno isa
  r.2.map fun isa => (isa, isa.type.map (str r.1.confbuf), isa.opt.map (str r.1.confbuf))

/-- The value for the controller, if it has one, is of at most one plain word. -/
def BootConf.IsaWhole (c : BootConf) (cls : CStr) (ctlrno : Int) : Prop :=
  ∀ v ∈ lookup c.strings (isaName cls ctlrno), Whole v

/-! ## What the comparison has seen -/

/-- A string that begins like the option is as long. -/
theorem cistrncmp_length {n : Nat} {a b : List Byte} (h : cistrncmp n a b = 0) (hLen : n = b.length)
    (hb : (0 : Byte) ∉ b) : n ≤ a.length := by
  subst hLen
  induction b generalizing a with
  | nil => exact Nat.zero_le _
  | cons y b ih =>
    rw [List.mem_cons, not_or] at hb
    have hZero : foldCase 0 = 0 := rfl
    have hEnd : foldCase y ≠ 0 := by
      rw [← hZero, Ne, foldCase_inj, show lowerByte 0 = 0 from rfl, lowerByte_eq_zero]
      exact Ne.symm hb.1
    rw [List.length_cons] at h ⊢
    -- the first bytes agree, so the string is not at its NUL
    have hSame : foldCase (a.headD 0) - foldCase y = 0 := by
      by_contra hDiff
      simp only [cistrncmp, List.headD_cons, ne_eq, hDiff, not_false_eq_true, if_true] at h
    have hRest : cistrncmp b.length a.tail b = 0 := by
      simpa only [cistrncmp, List.headD_cons, List.tail_cons, ne_eq, hSame, not_true_eq_false,
        if_false, hEnd] using h
    cases a with
    | nil =>
      rw [List.headD_nil, hZero] at hSame
      omega
    | cons x a => exact Nat.succ_le_succ (ih hb.2 hRest)

theorem decimal_nul (n : Int) : (0 : Byte) ∉ decimal n := by
  intro hMem
  rcases List.mem_append.mp hMem with hSign | hDigit
  · -- the sign is a `-`, or nothing
    split at hSign
    · revert hSign
      decide
    · simp at hSign
  · obtain ⟨c, hc, hZero⟩ := List.mem_map.mp hDigit
    -- a digit is a byte from 48 to 57
    have hIs := Nat.isDigit_of_mem_toDigits (by decide) (by decide) hc
    have hRange : 48 ≤ c.toNat ∧ c.toNat ≤ 57 := by
      simpa [Char.isDigit, UInt32.le_iff_toNat_le] using hIs
    have hNat := congrArg BitVec.toNat hZero
    rw [ch, BitVec.toNat_ofNat] at hNat
    change c.toNat % 2 ^ 8 = 0 at hNat
    omega

theorem isaName_nul (cls : CStr) (ctlrno : Int) : (0 : Byte) ∉ isaName cls ctlrno := by
  intro hMem
  rcases List.mem_append.mp (List.mem_of_mem_take hMem) with h | h
  · exact cls.2 h
  · exact decimal_nul ctlrno h

/-! ## What a call leaves -/

section

variable {c c' : BootConf} {es : List ConfEntry} {cls : CStr} {ctlrno : Int}

/-- The entry of a controller. -/
theorem Table.isaEntry (h : Table c es) {p : Nat} (hp : c.getconf (isaName cls ctlrno) = some p) :
    ∃ e ∈ es, p = e.2.1 ∧ lookup c.strings (isaName cls ctlrno) = some e.2.2 := by
  have hName := isaName_nul cls ctlrno
  rw [BootConf.getconf, h.find hName] at hp
  cases hFind : es.find? fun e => e.1.2.map lowerByte == (isaName cls ctlrno).map lowerByte with
  | none => simp [hFind] at hp
  | some e =>
    rw [hFind] at hp
    obtain rfl : e.2.1 = p := Option.some.inj hp
    have he := List.mem_of_find?_eq_some hFind
    refine ⟨e, he, rfl, ?_⟩
    rw [h.strings, ← h.getconf hName, BootConf.getconfStr, BootConf.getconf, h.find hName, hFind]
    exact congrArg some (h.value he).str

/-- A value of at most one plain word is left as it is. -/
theorem isaconfig_whole (h : Table c es) (hWhole : c.IsaWhole cls ctlrno) (isa : ISAConf) :
    (c.isaconfig cls ctlrno isa).1 = c := by
  rw [BootConf.isaconfig]
  cases hGet : c.getconf (isaName cls ctlrno) with
  | none => rfl
  | some p =>
    obtain ⟨e, he, rfl, hStr⟩ := h.isaEntry hGet
    have hTokens : tokenize c.confbuf e.2.1 NISAOPT = (c.confbuf, wholeArgs e.2.1 e.2.2) :=
      tokenize_whole (h.value he) (hWhole _ hStr)
    simp only [hTokens]

/-- Any other value is cut. -/
theorem isaconfig_strings (h : Table c es) (hNot : ¬ c.IsaWhole cls ctlrno) (isa : ISAConf) :
    (c.isaconfig cls ctlrno isa).1.strings ≠ c.strings := by
  intro hSame
  refine hNot fun v hv => ?_
  by_contra hCut
  have hFound := hv
  rw [h.strings, ← h.getconf (isaName_nul cls ctlrno), Option.mem_def, BootConf.getconfStr,
    Option.map_eq_some_iff] at hFound
  obtain ⟨p, hGet, -⟩ := hFound
  obtain ⟨e, he, rfl, hStr⟩ := h.isaEntry hGet
  obtain rfl : v = e.2.2 := Option.some.inj (hv.symm.trans hStr)
  obtain ⟨i, hFrom, hTo, hNul⟩ : ∃ i, e.2.1 ≤ i ∧ i < e.2.1 + e.2.2.length ∧
      (tokenize c.confbuf e.2.1 NISAOPT).1[i]? = some 0 := tokenize_cuts (h.value he) hCut
  simp only [BootConf.isaconfig, hGet, BootConf.strings, List.map_inj_left] at hSame
  -- the value is as it was, but it has a NUL in it now
  have hValue : str (tokenize c.confbuf e.2.1 NISAOPT).1 e.2.1 = e.2.2 := by
    have hPair := hSame (ConfEntry.offsets e) (by
      rw [h.confs]
      exact List.mem_map_of_mem he)
    exact (congrArg Prod.snd hPair).trans (h.value he).str
  have hByte := str_getElem? (show i - e.2.1 < (str (tokenize c.confbuf e.2.1 NISAOPT).1 e.2.1).length by
    rw [hValue]
    omega)
  rw [Nat.add_sub_cancel' hFrom, hNul, hValue] at hByte
  exact (h.value he).clean (List.mem_of_getElem? hByte.symm)

/-! ## What a call answers -/

/-- The same test on two sides. -/
theorem isaBranch {b : Prop} [Decidable b] {lo hi : Nat} {r r' t t' : ISAConf}
    (hThen : b → r = r' ∧ ∀ q ∈ r.type, lo ≤ q ∧ q ≤ hi)
    (hElse : ¬ b → t = t' ∧ ∀ q ∈ t.type, lo ≤ q ∧ q ≤ hi) :
    (if b then r else t) = (if b then r' else t') ∧
      ∀ q ∈ (if b then r else t).type, lo ≤ q ∧ q ≤ hi := by
  by_cases h : b
  · rw [if_pos h, if_pos h]
    exact hThen h
  · rw [if_neg h, if_neg h]
    exact hElse h

/-- One round reads the text only, and the type it finds is in the text. -/
theorem isaOption_congr {buf buf' : List Byte} {lo hi p : Nat} (h : SameText buf buf' lo hi)
    (hLow : lo ≤ p) (hHigh : p ≤ hi) {isa : ISAConf} (hType : ∀ q ∈ isa.type, lo ≤ q ∧ q ≤ hi) :
    isaOption buf isa p = isaOption buf' isa p ∧
      ∀ q ∈ (isaOption buf isa p).type, lo ≤ q ∧ q ≤ hi := by
  obtain ⟨-, hEnd⟩ := h.strAt hHigh
  have hRest : ∀ {k : Nat} {name : List Byte}, cistrncmp k (str buf p) name = 0 → k = name.length →
      (0 : Byte) ∉ name → p + k ≤ hi ∧ str buf' (p + k) = str buf (p + k) := by
    intro k name hBegins hLen hNul
    have hLong := cistrncmp_length hBegins hLen hNul
    exact ⟨by omega, h.str (by omega) (by omega)⟩
  -- an option that sets a number reads it behind its name
  have hNumber : ∀ (set : Word → ISAConf) {k : Nat}, (∀ v, (set v).type = isa.type) →
      str buf' (p + k) = str buf (p + k) →
      set (strtoul (str buf (p + k))) = set (strtoul (str buf' (p + k))) ∧
        ∀ q ∈ (set (strtoul (str buf (p + k)))).type, lo ≤ q ∧ q ≤ hi := by
    intro set k hKeeps hSame
    rw [hSame, hKeeps]
    exact ⟨rfl, hType⟩
  unfold isaOption
  rw [h.str hLow hHigh]
  refine isaBranch (fun hBegins => ⟨rfl, fun q hq => ?_⟩) fun _ => ?_
  · obtain rfl : p + 5 = q := Option.some.inj hq
    exact ⟨by omega, (hRest hBegins rfl (by decide)).1⟩
  refine isaBranch (fun hBegins => ?_) fun _ => ?_
  · exact hNumber (fun v => { isa with port := v }) (fun _ => rfl) (hRest hBegins rfl (by decide)).2
  refine isaBranch (fun hBegins => ?_) fun _ => ?_
  · exact hNumber (fun v => { isa with irq := v }) (fun _ => rfl) (hRest hBegins rfl (by decide)).2
  refine isaBranch (fun hBegins => ?_) fun _ => ?_
  · exact hNumber (fun v => { isa with dma := v }) (fun _ => rfl) (hRest hBegins rfl (by decide)).2
  refine isaBranch (fun hBegins => ?_) fun _ => ?_
  · exact hNumber (fun v => { isa with mem := v }) (fun _ => rfl) (hRest hBegins rfl (by decide)).2
  refine isaBranch (fun hBegins => ?_) fun _ => ?_
  · exact hNumber (fun v => { isa with size := v }) (fun _ => rfl) (hRest hBegins rfl (by decide)).2
  refine isaBranch (fun hBegins => ?_) fun _ => ⟨rfl, hType⟩
  · exact hNumber (fun v => { isa with freq := v }) (fun _ => rfl) (hRest hBegins rfl (by decide)).2

theorem isaOption_opt (buf : List Byte) (isa : ISAConf) (p : Nat) :
    (isaOption buf isa p).opt = isa.opt := by
  unfold isaOption
  dsimp only
  split_ifs <;> rfl

/-- The loop over the options. -/
theorem isaOptions_congr {buf buf' : List Byte} {lo hi : Nat} (h : SameText buf buf' lo hi)
    {opts : List Nat} (hOpts : ∀ p ∈ opts, lo ≤ p ∧ p ≤ hi) {isa : ISAConf}
    (hType : ∀ q ∈ isa.type, lo ≤ q ∧ q ≤ hi) :
    opts.foldl (isaOption buf) isa = opts.foldl (isaOption buf') isa ∧
      (∀ q ∈ (opts.foldl (isaOption buf) isa).type, lo ≤ q ∧ q ≤ hi) ∧
      (opts.foldl (isaOption buf) isa).opt = isa.opt := by
  induction opts generalizing isa with
  | nil =>
    rw [List.foldl_nil, List.foldl_nil]
    exact ⟨rfl, hType, rfl⟩
  | cons p opts ih =>
    obtain ⟨hLow, hHigh⟩ := hOpts p List.mem_cons_self
    obtain ⟨hRound, hNext⟩ := isaOption_congr h hLow hHigh hType
    obtain ⟨hLoop, hLast, hOpt⟩ := ih (fun q hq => hOpts q (List.mem_cons_of_mem _ hq)) hNext
    simp only [List.foldl_cons, ← hRound]
    refine ⟨hLoop, hLast, ?_⟩
    rw [hOpt, isaOption_opt]

/-- Two configurations with the same tables and strings answer a call alike. -/
theorem isaAnswer_congr (h : Table c es) (h' : Table c' es)
    (hLength : c.confbuf.length = c'.confbuf.length) (cls : CStr) (ctlrno : Int) (isa : ISAConf) :
    c'.isaAnswer cls ctlrno isa = c.isaAnswer cls ctlrno isa := by
  have hName := isaName_nul cls ctlrno
  have hGet : c'.getconf (isaName cls ctlrno) = c.getconf (isaName cls ctlrno) := by
    rw [BootConf.getconf, BootConf.getconf, h.find hName, h'.find hName]
  rw [BootConf.isaAnswer, BootConf.isaAnswer, BootConf.isaconfig, BootConf.isaconfig, hGet]
  cases hFound : c.getconf (isaName cls ctlrno) with
  | none => rfl
  | some p =>
    obtain ⟨e, he, rfl, -⟩ := h.isaEntry hFound
    -- the value is the same text in both buffers, and stays so when it is cut
    have hText := SameText.of_strAt (h.value he) (h'.value he) hLength
    obtain ⟨hArgs, hCut, hIn⟩ :
        (tokenize c.confbuf e.2.1 NISAOPT).2 = (tokenize c'.confbuf e.2.1 NISAOPT).2 ∧
        SameText (tokenize c.confbuf e.2.1 NISAOPT).1 (tokenize c'.confbuf e.2.1 NISAOPT).1
          e.2.1 (e.2.1 + e.2.2.length) ∧
        ∀ p ∈ (tokenize c.confbuf e.2.1 NISAOPT).2, e.2.1 ≤ p ∧ p ≤ e.2.1 + e.2.2.length :=
      tokenize_congr hText (le_refl _) (Nat.le_add_right ..)
    dsimp only
    rw [← hArgs]
    obtain ⟨hLoop, hType, hOpt⟩ := isaOptions_congr hCut hIn
      (show ∀ q ∈ ({ isa with type := none, opt := (tokenize c.confbuf e.2.1 NISAOPT).2 } :
        ISAConf).type, e.2.1 ≤ q ∧ q ≤ e.2.1 + e.2.2.length by simp)
    rw [← hLoop, Option.map_some, Option.map_some]
    -- the pointers are the same; the strings they point to are in the value
    refine congrArg some (Prod.ext rfl (Prod.ext ?_ ?_))
    · refine Option.map_congr fun q hq => ?_
      exact hCut.str (hType q hq).1 (hType q hq).2
    · refine List.map_congr_left fun q hq => ?_
      rw [hOpt] at hq
      exact hCut.str (hIn q hq).1 (hIn q hq).2

end

end Glendum
