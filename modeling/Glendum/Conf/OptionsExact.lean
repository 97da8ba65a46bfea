import Glendum.Conf.Options

/-!
# Glendum — which lines of the configuration arrive

The host puts its text at the start of `confbuf`, but `options` parses from `BOOTARGS`
on, behind the 64 bytes of the boot line. So the lines in the first 64 bytes are lost,
and of the line that is cut there the end is taken for a line. Besides, when there are
`MAXCONF` lines, `getfields` leaves the newline at the end of the last one.

* `settings_append` — the settings of a text that is cut in two;
* `fields_settings` — what the fields of a text set;
* `options_exact` — the texts whose lines all arrive as they should.
-/

namespace Glendum

open Machine

/-- What the lines of a text set, in their order. -/
def settings (text : List Byte) : List (List Byte × List Byte) :=
  ((clean text).splitOn (ch '\n')).filterMap setting

/-- The configuration is that of the text: the tables have the names and the values of
its lines, and `getconf` answers with the first value of a name. -/
def Arrives (text : List Byte) (c : BootConf) : Prop :=
  c.strings = settings text ∧
    ∀ name, (0 : Byte) ∉ name → c.getconfStr name = lookup (settings text) name

/-! ## Settings -/

theorem setting_eq_some {s n v : List Byte} :
    setting s = some (n, v) ↔ s.head? ≠ some (ch '#') ∧ s = n ++ ch '=' :: v ∧ ch '=' ∉ n := by
  constructor
  · intro h
    have hHead : s.head? ≠ some (ch '#') := fun hHead => by simp [setting, hHead] at h
    have hMem : ch '=' ∈ s := by
      by_contra hNone
      rw [setting_none hNone] at h
      cases h
    obtain ⟨n', v', rfl, hName⟩ := List.eq_append_cons_of_mem hMem
    rw [setting_mid hHead hName, Option.some.injEq, Prod.mk.injEq] at h
    obtain ⟨rfl, rfl⟩ := h
    exact ⟨hHead, rfl, hName⟩
  · rintro ⟨hHead, rfl, hName⟩
    exact setting_mid hHead hName

theorem setting_eq_none {s : List Byte} :
    setting s = none ↔ s.head? = some (ch '#') ∨ ch '=' ∉ s := by
  unfold setting
  by_cases hEq : ch '=' ∈ s
  · simp [hEq]
  · simp [hEq]

/-- What follows a line is part of the value that it sets. -/
theorem setting_append {s z : List Byte} (hNe : s ≠ []) (hZ : ch '=' ∉ z) :
    setting (s ++ z) = (setting s).map fun e => (e.1, e.2 ++ z) := by
  have hHead : (s ++ z).head? = s.head? := by
    cases s with
    | nil => exact absurd rfl hNe
    | cons c s => rfl
  cases hSet : setting s with
  | none =>
    -- neither a `#` at its head nor the lack of a `=` goes away
    refine setting_eq_none.mpr ?_
    rw [hHead, List.mem_append, not_or]
    exact (setting_eq_none.mp hSet).imp_right fun hNone => ⟨hNone, hZ⟩
  | some e =>
    obtain ⟨hNot, hEq, hName⟩ := setting_eq_some.mp hSet
    refine setting_eq_some.mpr ⟨by rwa [hHead], ?_, hName⟩
    rw [hEq, List.append_assoc]
    rfl

/-- A line and a proper end of it do not set the same. -/
theorem setting_end {a b : List Byte} {e : List Byte × List Byte} (hAll : setting (a ++ b) = some e)
    (hEnd : setting b = some e) : a = [] := by
  obtain ⟨-, hEqAll, -⟩ := setting_eq_some.mp hAll
  obtain ⟨-, hEqEnd, -⟩ := setting_eq_some.mp hEnd
  have hLength := congrArg List.length (hEqAll.trans hEqEnd.symm)
  rw [List.length_append] at hLength
  exact List.eq_nil_of_length_eq_zero (by omega)

theorem filterMap_cons_toList {α β : Type*} (f : α → Option β) (a : α) (l : List α) :
    (a :: l).filterMap f = (f a).toList ++ l.filterMap f := by
  rw [List.filterMap_cons]
  cases f a <;> rfl

/-! ## Lines -/

theorem splitOn_append (sep : Byte) (x y : List Byte) :
    ∃ init last hd tl, x.splitOn sep = init ++ [last] ∧ y.splitOn sep = hd :: tl ∧
      (x ++ y).splitOn sep = init ++ (last ++ hd) :: tl := by
  obtain ⟨hd, tl, hY⟩ := List.exists_cons_of_ne_nil (List.splitOn_ne_nil sep y)
  induction x with
  | nil => exact ⟨[], [], hd, tl, rfl, hY, hY⟩
  | cons c x ih =>
    obtain ⟨init, last, hd', tl', hX, hY', hXY⟩ := ih
    rw [hY] at hY'
    obtain ⟨rfl, rfl⟩ := List.cons.inj hY'
    rw [List.cons_append, List.splitOn_cons_eq_if_modifyHead, List.splitOn_cons_eq_if_modifyHead, hX,
      hXY]
    by_cases hC : c = sep
    · refine ⟨[] :: init, last, hd, tl, ?_, hY, ?_⟩ <;> simp [hC]
    · -- the byte belongs to the first line
      cases init with
      | nil => refine ⟨[], c :: last, hd, tl, ?_, hY, ?_⟩ <;> simp [hC]
      | cons i init => refine ⟨(c :: i) :: init, last, hd, tl, ?_, hY, ?_⟩ <;> simp [hC]

theorem notMem_splitOn {sep : Byte} {s p : List Byte} (hp : p ∈ s.splitOn sep) : sep ∉ p := by
  induction s generalizing p with
  | nil =>
    rw [List.splitOn_nil, List.mem_singleton] at hp
    simp [hp]
  | cons c s ih =>
    obtain ⟨q, qs, hSplit⟩ := List.exists_cons_of_ne_nil (List.splitOn_ne_nil sep s)
    rw [List.splitOn_cons_eq_if_modifyHead, hSplit] at hp
    rw [hSplit] at ih
    by_cases hC : c = sep
    · simp only [hC, beq_self_eq_true, if_true] at hp
      rcases List.mem_cons.mp hp with rfl | hp
      · simp
      · exact ih hp
    · simp only [beq_iff_eq, hC, if_false, List.modifyHead_cons] at hp
      rcases List.mem_cons.mp hp with rfl | hp
      · rw [List.mem_cons, not_or]
        exact ⟨Ne.symm hC, ih List.mem_cons_self⟩
      · exact ih (List.mem_cons_of_mem _ hp)

/-- No value has a newline in it. -/
theorem notMem_settings {text : List Byte} {e : List Byte × List Byte} (he : e ∈ settings text) :
    ch '\n' ∉ e.2 := by
  obtain ⟨line, hLine, hSet⟩ := List.mem_filterMap.mp he
  obtain ⟨-, hEq, -⟩ := setting_eq_some.mp hSet
  have hNone := notMem_splitOn hLine
  rw [hEq, List.mem_append, List.mem_cons, not_or, not_or] at hNone
  exact hNone.2.2

theorem filterMap_tokens (s : List Byte) :
    (tokens (ch '\n') s).filterMap setting = (s.splitOn (ch '\n')).filterMap setting := by
  rw [tokens, List.filterMap_filter]
  refine List.filterMap_congr fun line _ => ?_
  by_cases hEmpty : line = []
  · simp [hEmpty, setting]
  · simp [hEmpty]

/-! ## The last of many lines -/

/-- There are not so many lines that `getfields` would leave a newline in a value. -/
def LastClosed (rest : List Byte) : Prop :=
  (tokens (ch '\n') rest).length = MAXCONF → rest.getLast? = some (ch '\n') →
    ∀ line ∈ (tokens (ch '\n') rest).getLast?, setting line = none

instance (rest : List Byte) : Decidable (LastClosed rest) := by
  unfold LastClosed
  infer_instance

theorem mem_tokens_ne {sep : Byte} {s p : List Byte} (hp : p ∈ tokens sep s) : p ≠ [] := by
  simpa using (List.mem_filter.mp hp).2

/-- What the fields set is what the lines set, and else one value has a newline. -/
theorem fields_settings {rest : List Byte} (hLines : (tokens (ch '\n') rest).length ≤ MAXCONF) :
    (LastClosed rest ∧ (fields (ch '\n') MAXCONF rest).filterMap setting =
        (rest.splitOn (ch '\n')).filterMap setting) ∨
      (¬ LastClosed rest ∧
        ∃ e ∈ (fields (ch '\n') MAXCONF rest).filterMap setting, ch '\n' ∈ e.2) := by
  by_cases hMany : (tokens (ch '\n') rest).length = MAXCONF ∧ rest.getLast? = some (ch '\n')
  · obtain ⟨init, last, z, hTokens, hZ, hAll, hFields⟩ :=
      fields_full hMany.1 (by decide) hMany.2
    have hLast : (tokens (ch '\n') rest).getLast? = some last := by
      rw [hTokens, List.getLast?_append]
      rfl
    have hNe : last ≠ [] := mem_tokens_ne (List.mem_of_getLast? hLast)
    have hEq : ch '=' ∉ z := fun hMem => by
      have hSep := hAll _ hMem
      revert hSep
      decide
    rw [← filterMap_tokens, hFields, hTokens, List.filterMap_append, List.filterMap_append]
    cases hSet : setting last with
    | none =>
      left
      refine ⟨fun _ _ line hLine => ?_, ?_⟩
      · rw [hLast] at hLine
        exact Option.some.inj hLine ▸ hSet
      · simp [setting_append hNe hEq, hSet]
    | some e =>
      -- the value keeps the newlines that follow it
      right
      refine ⟨fun hClosed => ?_, (e.1, e.2 ++ z), ?_, ?_⟩
      · rw [hClosed hMany.1 hMany.2 last hLast] at hSet
        cases hSet
      · simp [setting_append hNe hEq, hSet]
      · obtain ⟨x, hx⟩ := List.exists_mem_of_ne_nil z hZ
        exact List.mem_append_right _ (hAll x hx ▸ hx)
  · left
    refine ⟨fun hFull hEnd => absurd ⟨hFull, hEnd⟩ hMany, ?_⟩
    rw [fields_eq_tokens hLines fun hFull hEnd => hMany ⟨hFull, hEnd⟩, filterMap_tokens]

/-! ## The cut -/

/-- The lines that lie in the first 64 bytes of the text as a whole, with the beginning
of the line that is cut as the last one. -/
def firstLines (text : List Byte) : List (List Byte) :=
  (clean (text.take BOOTLINELEN)).splitOn (ch '\n')

/-- The lines that `options` finds, the end of the cut one first. -/
def restLines (text : List Byte) : List (List Byte) :=
  (clean (text.drop BOOTLINELEN)).splitOn (ch '\n')

/-- With `head` what the lost lines set, and the cut line `begun ++ rest`: nothing is
lost and nothing invented. That is so when the lost lines set nothing and the cut is at
the end of a line, or in a line that sets nothing and ends in nothing that does; or when
the cut is in a comment, the end of which sets what the lost lines set. -/
def CutHarmless (head : List (List Byte × List Byte)) (begun rest : List Byte) : Prop :=
  (head = [] ∧ (begun = [] ∨ setting (begun ++ rest) = none ∧ setting rest = none)) ∨
    ((setting rest).toList = head ∧ head ≠ [] ∧ begun.head? = some (ch '#'))

instance (head : List (List Byte × List Byte)) (begun rest : List Byte) :
    Decidable (CutHarmless head begun rest) := by
  unfold CutHarmless
  infer_instance

theorem cut_iff {head : List (List Byte × List Byte)} {begun rest : List Byte} :
    (setting rest).toList = head ++ (setting (begun ++ rest)).toList ↔
      CutHarmless head begun rest := by
  unfold CutHarmless
  constructor
  · intro hSame
    cases hRest : setting rest with
    | none =>
      rw [hRest] at hSame
      obtain ⟨hHead, hAll⟩ := List.append_eq_nil_iff.mp hSame.symm
      exact Or.inl ⟨hHead, Or.inr ⟨by simpa using hAll, rfl⟩⟩
    | some e =>
      rw [hRest] at hSame
      cases hAll : setting (begun ++ rest) with
      | some e' =>
        -- both set something, so it is the same
        left
        rw [hAll, Option.toList_some, Option.toList_some] at hSame
        obtain ⟨hHead, hE⟩ := List.append_eq_singleton_iff.mp hSame.symm |>.resolve_right (by simp)
        rw [List.singleton_inj] at hE
        exact ⟨hHead, Or.inl (setting_end (hE ▸ hAll) hRest)⟩
      | none =>
        right
        rw [hAll, Option.toList_some, Option.toList_none, List.append_nil] at hSame
        refine ⟨hSame, by rw [← hSame]; simp, ?_⟩
        obtain ⟨hHead, hEq, -⟩ := setting_eq_some.mp hRest
        -- the whole line has the `=` of its end, so it is a comment
        have hComment := (setting_eq_none.mp hAll).resolve_right (by simp [hEq])
        cases begun with
        | nil => exact absurd hComment hHead
        | cons c begun => exact hComment
  · rintro (⟨rfl, rfl | ⟨hAll, hRest⟩⟩ | ⟨hRest, -, hComment⟩)
    · rfl
    · rw [hAll, hRest]
      rfl
    · have hAll : setting (begun ++ rest) = none := by
        refine setting_eq_none.mpr (Or.inl ?_)
        cases begun with
        | nil => cases hComment
        | cons c begun => exact hComment
      rw [hRest, hAll, Option.toList_none, List.append_nil]

/-- The settings of a text that is cut in two. -/
theorem settings_append (x y : List Byte) :
    ∃ init begun rest tl, (clean x).splitOn (ch '\n') = init ++ [begun] ∧
      (clean y).splitOn (ch '\n') = rest :: tl ∧
      settings (x ++ y) =
        init.filterMap setting ++ (setting (begun ++ rest)).toList ++ tl.filterMap setting := by
  obtain ⟨init, begun, rest, tl, hX, hY, hXY⟩ := splitOn_append (ch '\n') (clean x) (clean y)
  refine ⟨init, begun, rest, tl, hX, hY, ?_⟩
  rw [settings, clean_append, hXY, List.filterMap_append, filterMap_cons_toList, List.append_assoc]

/-! ## The whole chain -/

/-- For every text of the host with at most `MAXCONF` lines (lines that are empty, but
for carriage returns, do not count) that fits: `options` gets the lines of the text
exactly when the cut at byte 64 is harmless and the last line does not keep its
newline. -/
theorem options_exact (text : List Byte) (hNul : (0 : Byte) ∉ text)
    (hFits : text.length < BOOTARGSLEN) (hLines : (tokens (ch '\n') (clean text)).length ≤ MAXCONF) :
    Arrives text (options text) ↔
      CutHarmless ((firstLines text).dropLast.filterMap setting) ((firstLines text).getLastD [])
          ((restLines text).headD []) ∧
        LastClosed (clean (text.drop BOOTLINELEN)) := by
  obtain ⟨es, hTable, hSet⟩ := options_spec hNul
  -- the text is not cut at its end
  have hAll : (text.drop BOOTLINELEN).take (BOOTARGSLEN - 1) = text.drop BOOTLINELEN := by
    refine List.take_of_length_le ?_
    rw [List.length_drop]
    unfold BOOTLINELEN
    omega
  rw [hAll] at hSet
  have hText : text = text.take BOOTLINELEN ++ text.drop BOOTLINELEN :=
    (List.take_append_drop ..).symm
  obtain ⟨init, begun, rest, tl, hFirst, hRest, hSettings⟩ :=
    settings_append (text.take BOOTLINELEN) (text.drop BOOTLINELEN)
  rw [← hText] at hSettings
  have hStrings : (options text).strings = settings text ↔
      (fields (ch '\n') MAXCONF (clean (text.drop BOOTLINELEN))).filterMap setting =
        settings text := by
    rw [hTable.strings, hSet]
  have hArrives : Arrives text (options text) ↔ (options text).strings = settings text := by
    refine ⟨fun h => h.1, fun h => ⟨h, fun name hName => ?_⟩⟩
    rw [hTable.getconf hName, ← hTable.strings, h]
  have hRestLines : (tokens (ch '\n') (clean (text.drop BOOTLINELEN))).length ≤ MAXCONF := by
    refine (length_tokens_append (clean (text.take BOOTLINELEN))).trans ?_
    rwa [← clean_append, ← hText]
  rw [hArrives, hStrings, firstLines, hFirst, restLines, hRest, List.dropLast_concat,
    List.getLastD_concat, List.headD_cons]
  rcases fields_settings hRestLines with ⟨hClosed, hFields⟩ | ⟨hOpen, e, he, hNewline⟩
  · rw [hFields, hRest, hSettings, filterMap_cons_toList, ← cut_iff, List.append_left_inj]
    exact ⟨fun h => ⟨h, hClosed⟩, fun h => h.1⟩
  · -- no value of the text has a newline
    refine iff_of_false (fun hSame => ?_) fun h => hOpen h.2
    rw [hSame] at he
    exact notMem_settings he hNewline

/-- A comment of 63 bytes and a line behind it. -/
def commented : List Byte := List.replicate 63 (ch '#') ++ ascii "\nfoo=bar\r\n"

theorem options_exact_commented : Arrives commented (options commented) :=
  (options_exact commented (by decide +kernel) (by decide +kernel) (by decide +kernel)).mpr
    (by decide +kernel)

/-- The host's configuration, `plan9ini`. -/
def plan9ini : List Byte :=
  ascii "debug=1\r\nbootfile=sdC0!9fat!9pcdisk\r\ncfs=#S/sdC0/cache\r\n" ++
    ascii "*nomp=1\r\n*maxmem=33554432\r\nfoo=bar\r\ndistname=plan9\r\n"

/-- The first lines of it are lost, `debug=1` among them. -/
theorem plan9ini_lost : (0 : Byte) ∉ plan9ini ∧ plan9ini.length < BOOTARGSLEN ∧
    (tokens (ch '\n') (clean plan9ini)).length ≤ MAXCONF ∧
    lookup (settings plan9ini) (ascii "debug") = some (ascii "1") ∧
    ¬ Arrives plan9ini (options plan9ini) := by
  have hNul : (0 : Byte) ∉ plan9ini := by decide +kernel
  refine ⟨hNul, by decide +kernel, by decide +kernel, by decide +kernel, fun hArrives => ?_⟩
  obtain ⟨es, hTable, hSet⟩ := options_spec hNul
  have hLost : lookup ((fields (ch '\n') MAXCONF
      (clean ((plan9ini.drop BOOTLINELEN).take (BOOTARGSLEN - 1)))).filterMap setting)
      (ascii "debug") ≠ lookup (settings plan9ini) (ascii "debug") := by decide +kernel
  refine hLost ?_
  rw [← hSet, ← hTable.getconf (by decide +kernel), hArrives.2 _ (by decide +kernel)]

end Glendum
