import Glendum.Conf.Stable

/-!
# Glendum — what writeconf writes, read back

`writeconf` leaves the environment at `BOOTARGS` as lines of `name=value`, for `options`
to parse at the next start. It refuses a text that is too long for the place, but it
does not count the lines, and `options` has room for `MAXCONF` of them.

* `parseArgs_confText` — the fields of the text that `options` cuts;
* `writeconf_options_iff` — the pairs come back for the environments of fewer than
  `MAXCONF` variables.
-/

namespace Glendum

open Machine

/-- A variable that a line of the configuration can carry. -/
structure EnvVar.Plain (v : EnvVar) : Prop where
  name  : ∀ c ∈ v.name.1, c ≠ ch '=' ∧ c ≠ ch '\r' ∧ c ≠ ch '\t' ∧ c ≠ ch '\n'
  head  : v.name.1.head? ≠ some (ch '#')
  value : ∀ c ∈ v.value.1, c ≠ ch '\r' ∧ c ≠ ch '\t' ∧ c ≠ ch '\n'

def EnvVar.line (v : EnvVar) : List Byte := v.name.1 ++ ch '=' :: v.value.1

def EnvVar.pair (v : EnvVar) : List Byte × List Byte := (v.name.1, v.value.1)

theorem confText_eq (env : List EnvVar) :
    confText env = (env.map EnvVar.line).flatMap (· ++ [ch '\n']) := by
  simp [confText, EnvVar.line, List.flatMap_map]

section

variable {v : EnvVar} {env : List EnvVar}

theorem EnvVar.Plain.setting (h : v.Plain) (rest : List Byte) :
    setting (v.line ++ rest) = some (v.name.1, v.value.1 ++ rest) := by
  have hHead : (v.name.1 ++ ch '=' :: (v.value.1 ++ rest)).head? ≠ some (ch '#') := by
    have hName := h.head
    cases hEq : v.name.1 with
    | nil => exact absurd hEq v.named
    | cons c n =>
      rw [hEq] at hName
      exact hName
  have hMid := setting_mid hHead fun hMem => (h.name _ hMem).1 rfl
  simpa [EnvVar.line] using hMid

theorem EnvVar.Plain.line_mem (h : v.Plain) {c : Byte} (hc : c ∈ v.line) :
    c ≠ ch '\r' ∧ c ≠ ch '\t' ∧ c ≠ ch '\n' ∧ c ≠ 0 := by
  rw [EnvVar.line, List.mem_append, List.mem_cons] at hc
  rcases hc with hName | rfl | hValue
  · obtain ⟨-, hCr, hTab, hNl⟩ := h.name c hName
    exact ⟨hCr, hTab, hNl, fun h0 => v.name.2 (h0 ▸ hName)⟩
  · decide
  · obtain ⟨hCr, hTab, hNl⟩ := h.value c hValue
    exact ⟨hCr, hTab, hNl, fun h0 => v.value.2 (h0 ▸ hValue)⟩

theorem lines_plain (hPlain : ∀ v ∈ env, v.Plain) :
    ∀ l ∈ env.map EnvVar.line, l ≠ [] ∧ ch '\n' ∉ l := by
  intro l hl
  obtain ⟨v, hv, rfl⟩ := List.mem_map.mp hl
  refine ⟨by simp [EnvVar.line], fun hMem => ?_⟩
  exact ((hPlain v hv).line_mem hMem).2.2.1 rfl

theorem confText_mem (hPlain : ∀ v ∈ env, v.Plain) {c : Byte} (hc : c ∈ confText env) :
    c ≠ ch '\r' ∧ c ≠ ch '\t' ∧ c ≠ 0 := by
  rw [confText_eq] at hc
  obtain ⟨l, hl, hc⟩ := List.mem_flatMap.mp hc
  obtain ⟨v, hv, rfl⟩ := List.mem_map.mp hl
  rcases List.mem_append.mp hc with hLine | hNl
  · obtain ⟨hCr, hTab, -, hZero⟩ := (hPlain v hv).line_mem hLine
    exact ⟨hCr, hTab, hZero⟩
  · rw [List.mem_singleton] at hNl
    subst hNl
    decide

/-- There is nothing for `options` to strip. -/
theorem clean_confText (hPlain : ∀ v ∈ env, v.Plain) : clean (confText env) = confText env := by
  have hKeep : (confText env).filter (· ≠ ch '\r') = confText env :=
    List.filter_eq_self.mpr fun c hc => by simpa using (confText_mem hPlain hc).1
  rw [clean, hKeep]
  refine List.map_congr_left (g := id) (fun c hc => ?_) |>.trans (List.map_id _)
  exact if_neg (confText_mem hPlain hc).2.1

/-- The text stands at `BOOTARGS` when `writeconf` is done, and `options` does not cut
it. -/
theorem strAt_confText {c : BootConf} (hSize : c.confbuf.length = CONFSIZE)
    (hPlain : ∀ v ∈ env, v.Plain) (hFits : (confText env).length + 1 < BOOTARGSLEN) :
    StrAt ((c.write (confText env ++ [0])).confbuf.set (BOOTARGS + (BOOTARGSLEN - 1)) 0) BOOTARGS
      (confText env) := by
  have hByte : ∀ j, j ≤ (confText env).length →
      ((c.write (confText env ++ [0])).confbuf.set (BOOTARGS + (BOOTARGSLEN - 1)) 0)[BOOTARGS + j]? =
        (confText env ++ [0])[j]? := by
    intro j hj
    have hIn : j < (confText env ++ [0]).length := by
      rw [List.length_append, List.length_singleton]
      omega
    rw [List.getElem?_set_ne (by omega), getElem?_write hSize (Nat.le_add_right ..),
      Nat.add_sub_cancel_left, List.getElem?_eq_getElem hIn, Option.some_or]
  refine ⟨fun j hj => ?_, ?_, fun hNul => (confText_mem hPlain hNul).2.2 rfl⟩
  · rw [hByte j hj.le, List.getElem?_append_left hj]
  · rw [hByte _ le_rfl, List.getElem?_append_right le_rfl, Nat.sub_self]
    rfl

/-- What `options` gets from the text of `writeconf`. -/
theorem parseArgs_confText {c : BootConf} (hSize : c.confbuf.length = CONFSIZE)
    (hPlain : ∀ v ∈ env, v.Plain) (hFits : (confText env).length + 1 < BOOTARGSLEN) :
    (parseArgs (c.write (confText env ++ [0])).confbuf).strings =
      (fields (ch '\n') MAXCONF (confText env)).filterMap setting := by
  obtain ⟨es, hTable, hSet⟩ := parseArgs_spec (strAt_confText hSize hPlain hFits)
  rw [hTable.strings, hSet, clean_confText hPlain]

/-- Each line sets its variable. -/
theorem filterMap_lines (hPlain : ∀ v ∈ env, v.Plain) :
    (env.map EnvVar.line).filterMap setting = env.map EnvVar.pair := by
  rw [List.filterMap_map]
  have hLine : ∀ v ∈ env, (setting ∘ EnvVar.line) v = some v.pair := fun v hv => by
    simpa [EnvVar.pair] using (hPlain v hv).setting []
  rw [List.filterMap_congr hLine]
  exact congrFun List.filterMap_eq_map env

/-- Fewer variables than `options` has room for come back. -/
theorem settings_few (hPlain : ∀ v ∈ env, v.Plain) (hFew : env.length < MAXCONF) :
    (fields (ch '\n') MAXCONF (confText env)).filterMap setting = env.map EnvVar.pair := by
  rw [confText_eq, fields_lines (lines_plain hPlain) (by rwa [List.length_map]),
    filterMap_lines hPlain]

/-- Of more variables, the last value that `options` has room for is too long. -/
theorem settings_many (hPlain : ∀ v ∈ env, v.Plain) (hMany : MAXCONF ≤ env.length) :
    (fields (ch '\n') MAXCONF (confText env)).filterMap setting ≠ env.map EnvVar.pair := by
  have hLast : MAXCONF - 1 < env.length := lt_of_lt_of_le (by decide) hMany
  have hMem : env[MAXCONF - 1] ∈ env := List.getElem_mem hLast
  -- the variables before it, and all the lines from it on
  have hTake : ((env.map EnvVar.line).take (MAXCONF - 1)).filterMap setting =
      (env.take (MAXCONF - 1)).map EnvVar.pair := by
    rw [← List.map_take]
    exact filterMap_lines fun w hw => hPlain w (List.mem_of_mem_take hw)
  have hDrop : env.drop (MAXCONF - 1) = env[MAXCONF - 1] :: env.drop MAXCONF :=
    List.drop_eq_getElem_cons hLast
  intro hSame
  rw [confText_eq, show MAXCONF = MAXCONF - 1 + 1 from rfl,
    fields_lines_full (lines_plain hPlain) (by rwa [List.length_map]), List.filterMap_append, hTake,
    ← List.map_drop, hDrop, List.map_cons, List.flatMap_cons, List.append_assoc] at hSame
  have hAt := congrArg (fun l => l[MAXCONF - 1]?) hSame
  have hLen : ((env.take (MAXCONF - 1)).map EnvVar.pair).length = MAXCONF - 1 := by
    rw [List.length_map, List.length_take]
    omega
  rw [List.getElem?_append_right hLen.le, hLen, Nat.sub_self, List.filterMap_cons,
    (hPlain _ hMem).setting, List.getElem?_map, List.getElem?_eq_getElem hLast] at hAt
  have hValue := congrArg (List.length ∘ Prod.snd) (Option.some.inj hAt)
  simp [EnvVar.pair] at hValue

end

/-- **`options` undoes `writeconf` for fewer than `MAXCONF` variables.** For every
environment that `writeconf` accepts, with names and values that a line can carry, the
parsing loop of `options` yields the variables in their order exactly when there are at
most 63 of them. -/
theorem writeconf_options_iff {c c' : BootConf} {env : List EnvVar}
    (hSize : c.confbuf.length = CONFSIZE) (hPlain : ∀ v ∈ env, v.Plain)
    (hWrite : c.writeconf (.ok env) = .ok c') :
    (parseArgs c'.confbuf).strings = env.map (fun v => (v.name.1, v.value.1)) ↔
      env.length < MAXCONF := by
  rw [writeconf_eq] at hWrite
  split at hWrite
  · cases hWrite
  · next hFits =>
    cases hWrite
    rw [parseArgs_confText hSize hPlain (Nat.lt_of_not_le hFits)]
    constructor
    · intro hSame
      by_contra hMany
      exact settings_many hPlain (Nat.le_of_not_lt hMany) hSame
    · exact settings_few hPlain

/-- The variables `foo=bar`, `console=0 b9600` and `*nomp`, which is empty. -/
def bootEnv : List EnvVar :=
  [⟨⟨ascii "foo", by decide⟩, ⟨ascii "bar", by decide⟩, by decide⟩,
    ⟨⟨ascii "console", by decide⟩, ⟨ascii "0 b9600", by decide⟩, by decide⟩,
    ⟨⟨ascii "*nomp", by decide⟩, ⟨[], by decide⟩, by decide⟩]

theorem bootEnv_plain : ∀ v ∈ bootEnv, v.Plain := by
  have hFields : ∀ v ∈ bootEnv,
      (∀ c ∈ v.name.1, c ≠ ch '=' ∧ c ≠ ch '\r' ∧ c ≠ ch '\t' ∧ c ≠ ch '\n') ∧
      v.name.1.head? ≠ some (ch '#') ∧
      ∀ c ∈ v.value.1, c ≠ ch '\r' ∧ c ≠ ch '\t' ∧ c ≠ ch '\n' := by decide
  exact fun v hv => ⟨(hFields v hv).1, (hFields v hv).2.1, (hFields v hv).2.2⟩

def emptyConf : BootConf where
  confbuf := List.replicate CONFSIZE 0
  confs := []

theorem emptyConf_writeconf {env : List EnvVar} (hFits : (confText env).length + 1 < BOOTARGSLEN) :
    emptyConf.writeconf (.ok env) = .ok (emptyConf.write (confText env ++ [0])) := by
  rw [writeconf_eq, if_neg (by omega)]

/-- The three variables come back in their order. -/
theorem writeconf_options_three :
    ∃ c', emptyConf.writeconf (.ok bootEnv) = .ok c' ∧
      (parseArgs c'.confbuf).strings = [(ascii "foo", ascii "bar"),
        (ascii "console", ascii "0 b9600"), (ascii "*nomp", [])] := by
  have hWrite : emptyConf.writeconf (.ok bootEnv) = _ := emptyConf_writeconf (by decide)
  exact ⟨_, hWrite,
    (writeconf_options_iff List.length_replicate bootEnv_plain hWrite).mpr (by decide)⟩

/-- The variable number `n`, under a name of two letters. -/
def numbered (n : Nat) : EnvVar where
  name := ⟨[BitVec.ofNat 8 (97 + n / 16 % 16), BitVec.ofNat 8 (97 + n % 16)], by
    simp only [List.mem_cons, List.not_mem_nil, or_false, not_or]
    constructor <;> bv_omega⟩
  value := ⟨[ch '1'], by decide⟩
  named := by simp

theorem numbered_plain (n : Nat) : (numbered n).Plain := by
  have hLetter : ∀ k < 16, BitVec.ofNat 8 (97 + k) ≠ ch '=' ∧ BitVec.ofNat 8 (97 + k) ≠ ch '\r' ∧
      BitVec.ofNat 8 (97 + k) ≠ ch '\t' ∧ BitVec.ofNat 8 (97 + k) ≠ ch '\n' ∧
      BitVec.ofNat 8 (97 + k) ≠ ch '#' := by decide
  obtain ⟨hEq, hCr, hTab, hNl, hHash⟩ := hLetter (n / 16 % 16) (Nat.mod_lt _ (by decide))
  obtain ⟨hEq', hCr', hTab', hNl', -⟩ := hLetter (n % 16) (Nat.mod_lt _ (by decide))
  refine ⟨fun c hc => ?_, fun h => hHash (Option.some.inj h), by simp [numbered]; decide⟩
  rcases List.mem_pair.mp hc with rfl | rfl
  · exact ⟨hEq, hCr, hTab, hNl⟩
  · exact ⟨hEq', hCr', hTab', hNl'⟩

/-- The last of 64 variables comes back with a newline in its value. -/
theorem writeconf_options_loses :
    ∃ c', emptyConf.writeconf (.ok ((List.range 64).map numbered)) = .ok c' ∧
      (∀ v ∈ (List.range 64).map numbered, v.Plain) ∧
      ((List.range 64).map numbered).Pairwise (fun v w => v.name.1 ≠ w.name.1) ∧
      (parseArgs c'.confbuf).strings ≠
        ((List.range 64).map numbered).map (fun v => (v.name.1, v.value.1)) := by
  have hPlain : ∀ v ∈ (List.range 64).map numbered, v.Plain := by
    intro v hv
    obtain ⟨n, -, rfl⟩ := List.mem_map.mp hv
    exact numbered_plain n
  have hFits : (confText ((List.range 64).map numbered)).length + 1 < BOOTARGSLEN := by
    decide +kernel
  refine ⟨_, emptyConf_writeconf hFits, hPlain, by decide +kernel, ?_⟩
  rw [parseArgs_confText List.length_replicate hPlain hFits]
  exact settings_many hPlain (by decide)

end Glendum
