import Glendum.Host.Link

/-!
# Glendum — a symbol table of any content

`hostlink` scans its table without looking where it ends: `strlen` and `dblen` go on until
they find a terminator, and the end of the table is looked for behind an entry only. Here
the table is any `ssyms` bytes, of which `read` may have filled fewer; memory ends where the
filled bytes do, so that `linkTable` has a result when no other byte is read. The text that is
patched does not overlap the table, which is on the stack.

* `readSym_entryAt` — a turn that stays inside reads one complete entry;
* `linkLoop_inside`, `inside_of_linkLoop` — the tables over which the loop stays inside;
* `linkLoop_above` — what lies behind does not matter then;
* `symbol_scan_exact` — both, for the whole function.
-/

namespace Glendum

open Machine

/-! ## Complete entries -/

/-- The bytes of an entry from the type on, with the terminator that the loop finds. -/
structure RawEntry where
  addr   : Word
  /-- as it is in the file -/
  type   : Byte
  body   : List Byte
  closed : (if type - 0x80 = ch 'Z' ∨ type - 0x80 = ch 'z' then (dblen (body.drop 1)).map fun n => n + 3
    else (strlen body).map fun n => n + 1) = some body.length

def RawEntry.bytes (e : RawEntry) : List Byte := be32 e.addr ++ e.type :: e.body

/-- An entry of type `T` with the given name. -/
def RawEntry.isText (e : RawEntry) (name : String) : Prop :=
  e.type - 0x80 = ch 'T' ∧ cstring e.body = ascii name

/-- The mark for the end comes behind the one for the beginning. -/
def Marked (es : List RawEntry) : Prop :=
  ∃ b e, [b, e].Sublist es ∧ b.isText "__hostlink_begin" ∧ e.isText "__hostlink_end"

/-- The table `symt`, and what `read` has filled of it. -/
structure SymArea where
  ssyms  : Nat
  filled : List Byte
  fits   : filled.length ≤ ssyms

/-- The filled bytes begin with complete entries, at least one, and the two marks are among
these, or they are the whole table. -/
def SymArea.Whole (a : SymArea) : Prop :=
  ∃ es tail, es ≠ [] ∧ a.filled = es.flatMap RawEntry.bytes ++ tail ∧
    (Marked es ∨ (es.flatMap RawEntry.bytes).length = a.ssyms)

/-! ## Terminators -/

section

variable {s rest : List Byte} {n : Nat}

/-- What comes behind its NUL does not change a string. -/
theorem strlen_extend (h : strlen s = some n) (rest : List Byte) :
    strlen (s ++ rest) = some n ∧ cstring (s ++ rest) = cstring s := by
  induction s generalizing n with
  | nil => cases h
  | cons b s ih =>
    rw [strlen] at h
    rw [List.cons_append, strlen, cstring, cstring]
    by_cases hNul : b = 0
    · rw [if_pos hNul] at h ⊢
      rw [List.takeWhile_cons_of_neg (by simpa using hNul),
        List.takeWhile_cons_of_neg (by simpa using hNul)]
      exact ⟨h, rfl⟩
    · rw [if_neg hNul] at h ⊢
      obtain ⟨m, hm, rfl⟩ := Option.map_eq_some_iff.mp h
      obtain ⟨hLen, hStr⟩ := ih hm
      rw [cstring, cstring] at hStr
      rw [hLen, List.takeWhile_cons_of_pos (by simpa using hNul),
        List.takeWhile_cons_of_pos (by simpa using hNul), hStr]
      exact ⟨rfl, rfl⟩

/-- A string can be cut behind its NUL. -/
theorem strlen_take (h : strlen s = some n) : n + 1 ≤ s.length ∧ strlen (s.take (n + 1)) = some n := by
  induction s generalizing n with
  | nil => cases h
  | cons b s ih =>
    rw [strlen] at h
    rw [List.take_succ_cons, strlen, List.length_cons]
    by_cases hNul : b = 0
    · rw [if_pos hNul] at h ⊢
      obtain rfl := Option.some.inj h
      exact ⟨by omega, rfl⟩
    · rw [if_neg hNul] at h ⊢
      obtain ⟨m, hm, rfl⟩ := Option.map_eq_some_iff.mp h
      obtain ⟨hLen, hCut⟩ := ih hm
      rw [hCut]
      exact ⟨by omega, rfl⟩

/-- What comes behind the two NULs does not change a path. -/
theorem dblen_extend (h : dblen s = some n) (rest : List Byte) : dblen (s ++ rest) = some n := by
  induction s generalizing n with
  | nil => cases h
  | cons a s ih =>
    cases s with
    | nil => cases h
    | cons b s =>
      rw [dblen] at h
      rw [List.cons_append, List.cons_append, dblen]
      by_cases hNul : a = 0 ∧ b = 0
      · rw [if_pos hNul] at h ⊢
        exact h
      · rw [if_neg hNul] at h ⊢
        obtain ⟨m, hm, rfl⟩ := Option.map_eq_some_iff.mp h
        rw [← List.cons_append, ih hm]
        rfl

/-- A path can be cut behind its two NULs. -/
theorem dblen_take (h : dblen s = some n) : n + 2 ≤ s.length ∧ dblen (s.take (n + 2)) = some n := by
  induction s generalizing n with
  | nil => cases h
  | cons a s ih =>
    cases s with
    | nil => cases h
    | cons b s =>
      rw [dblen] at h
      rw [List.take_succ_cons, List.take_succ_cons, dblen, List.length_cons, List.length_cons]
      by_cases hNul : a = 0 ∧ b = 0
      · rw [if_pos hNul] at h ⊢
        obtain rfl := Option.some.inj h
        exact ⟨by omega, rfl⟩
      · rw [if_neg hNul] at h ⊢
        obtain ⟨m, hm, rfl⟩ := Option.map_eq_some_iff.mp h
        obtain ⟨hLen, hCut⟩ := ih hm
        rw [List.take_succ_cons] at hCut
        rw [hCut, ← List.length_cons (a := b)]
        exact ⟨by omega, rfl⟩

end

/-! ## One turn -/

section

variable {symp rest : List Byte} {r : SymRead}

/-- The size of what lies behind the type, as the loop finds it. -/
def bodySize (type : Byte) (symname : List Byte) : Option Nat :=
  if type - 0x80 = ch 'Z' ∨ type - 0x80 = ch 'z' then (dblen (symname.drop 1)).map fun n => n + 3
  else (strlen symname).map fun n => n + 1

/-- A turn reads the five bytes of the header and the body. -/
theorem readSym_bodySize (addr : Word) (type : Byte) (symname : List Byte) :
    readSym (be32 addr ++ type :: symname) = (bodySize type symname).map fun n =>
      { addr, stype := type - 0x80, symname, symsize := 5 + n } := by
  have hType : type = type - 0x80 + 0x80 := (BitVec.sub_add_cancel type 0x80).symm
  have hRead := readSym_header addr (type - 0x80) symname
  rw [← hType] at hRead
  rw [hRead, bodySize]
  split
  · rw [Option.map_map, Option.map_map]
    rfl
  · rw [Option.map_map, Option.map_map]
    rfl

/-- What comes behind a body does not matter. -/
theorem bodySize_extend {type : Byte} {symname : List Byte} {n : Nat}
    (h : bodySize type symname = some n) (rest : List Byte) :
    bodySize type (symname ++ rest) = some n := by
  unfold bodySize at h ⊢
  split at h
  · obtain ⟨m, hm, rfl⟩ := Option.map_eq_some_iff.mp h
    rename_i hPath
    -- a path has at least the byte that is not looked at
    cases symname with
    | nil => cases hm
    | cons b symname =>
      rw [List.drop_one, List.tail_cons] at hm
      rw [if_pos hPath, List.cons_append, List.drop_one, List.tail_cons, dblen_extend hm]
      rfl
  · obtain ⟨m, hm, rfl⟩ := Option.map_eq_some_iff.mp h
    rename_i hName
    rw [if_neg hName, (strlen_extend hm rest).1]
    rfl

/-- A body can be cut where it ends. -/
theorem bodySize_take {type : Byte} {symname : List Byte} {n : Nat}
    (h : bodySize type symname = some n) :
    n ≤ symname.length ∧ bodySize type (symname.take n) = some n := by
  unfold bodySize at h ⊢
  split at h
  · obtain ⟨m, hm, rfl⟩ := Option.map_eq_some_iff.mp h
    rename_i hPath
    cases symname with
    | nil => cases hm
    | cons b symname =>
      rw [List.drop_one, List.tail_cons] at hm
      obtain ⟨hLen, hCut⟩ := dblen_take hm
      rw [if_pos hPath, List.take_succ_cons, List.drop_one, List.tail_cons, hCut, List.length_cons]
      exact ⟨by omega, rfl⟩
  · obtain ⟨m, hm, rfl⟩ := Option.map_eq_some_iff.mp h
    rename_i hName
    obtain ⟨hLen, hCut⟩ := strlen_take hm
    rw [if_neg hName, hCut]
    exact ⟨hLen, rfl⟩

/-- The body of an entry is read as a whole. -/
theorem RawEntry.bodySize (e : RawEntry) : Glendum.bodySize e.type e.body = some e.body.length :=
  e.closed

/-- The size of an entry. -/
theorem RawEntry.length_bytes (e : RawEntry) : e.bytes.length = 5 + e.body.length := by
  rw [RawEntry.bytes, List.length_append, length_be32, List.length_cons]
  omega

/-- There are no more entries than bytes. -/
theorem length_le_bytes (es : List RawEntry) : es.length ≤ (es.flatMap RawEntry.bytes).length := by
  induction es with
  | nil => exact Nat.le_refl _
  | cons e es ih =>
    rw [List.flatMap_cons, List.length_append, e.length_bytes, List.length_cons]
    omega

/-- The turn over a complete entry. -/
theorem readSym_raw (e : RawEntry) (rest : List Byte) : readSym (e.bytes ++ rest) = some {
    addr := e.addr, stype := e.type - 0x80, symname := e.body ++ rest,
    symsize := e.bytes.length } := by
  rw [RawEntry.bytes, List.append_assoc, List.cons_append, readSym_bodySize,
    bodySize_extend e.bodySize rest, Option.map_some, ← RawEntry.bytes, e.length_bytes]

/-- A turn that stays inside reads a complete entry. -/
theorem readSym_entryAt (h : readSym symp = some r) : ∃ (e : RawEntry) (rest : List Byte),
    symp = e.bytes ++ rest := by
  -- the header was read, so it is there
  have hHead : ∃ addr type symname, symp = be32 addr ++ type :: symname := by
    unfold readSym at h
    split at h
    · rename_i addr t hAddr hType
      have hSplit := eq_be32_append hAddr
      have hRest : (symp.drop 4)[0]? = some t := by
        rw [List.getElem?_drop]
        exact hType
      cases hTail : symp.drop 4 with
      | nil => simp [hTail] at hRest
      | cons t' symname => exact ⟨addr, t', symname, by rw [← hTail]; exact hSplit⟩
    · cases h
  obtain ⟨addr, type, symname, rfl⟩ := hHead
  rw [readSym_bodySize, Option.map_eq_some_iff] at h
  obtain ⟨n, hn, -⟩ := h
  obtain ⟨hLen, hCut⟩ := bodySize_take hn
  -- and what was found of the body closes an entry
  have hClosed : bodySize type (symname.take n) = some (symname.take n).length := by
    rw [hCut, List.length_take, Nat.min_eq_left hLen]
  refine ⟨⟨addr, type, symname.take n, hClosed⟩, symname.drop n, ?_⟩
  rw [RawEntry.bytes, List.append_assoc, List.cons_append, List.take_append_drop]

/-- The name of an entry of type `T` is all in the entry. -/
theorem cstring_raw (e : RawEntry) (hText : e.type - 0x80 = ch 'T') (rest : List Byte) :
    cstring (e.body ++ rest) = cstring e.body := by
  have hSize := e.bodySize
  rw [Glendum.bodySize, if_neg (by rw [hText]; decide)] at hSize
  obtain ⟨m, hm, -⟩ := Option.map_eq_some_iff.mp hSize
  exact (strlen_extend hm rest).2

/-- What comes behind an entry does not change its name. -/
theorem isText_raw (e : RawEntry) (rest : List Byte) (name : String) :
    (⟨e.addr, e.type - 0x80, e.body ++ rest, e.bytes.length⟩ : SymRead).isText name = true ↔
      e.isText name := by
  simp only [SymRead.isText, RawEntry.isText, Bool.and_eq_true, beq_iff_eq]
  refine and_congr_right fun hText => ?_
  rw [cstring_raw e hText]

end

/-! ## The loop -/

/-- The loop breaks at the mark for the end, when it is behind the one for the beginning. -/
def MarkedFrom (active : Bool) (es : List RawEntry) : Prop :=
  (active = true ∧ ∃ e ∈ es, e.isText "__hostlink_end") ∨ Marked es

section

variable {acc : Access} {A : HostAddr} {filled : List Byte} {ssyms n symp : Nat} {active : Bool}
  {st : Linking} {e : RawEntry} {es : List RawEntry} {tail : List Byte}

/-- One symbol is not both marks. -/
theorem not_both (h : e.isText "__hostlink_begin") : ¬ e.isText "__hostlink_end" := by
  intro hEnd
  have hSame : ascii "__hostlink_begin" = ascii "__hostlink_end" := h.2.symm.trans hEnd.2
  revert hSame
  decide +kernel

/-- The mark of the beginning comes in an earlier entry, or is this one. -/
theorem marked_cons : Marked (e :: es) ↔
    Marked es ∨ e.isText "__hostlink_begin" ∧ ∃ e' ∈ es, e'.isText "__hostlink_end" := by
  constructor
  · rintro ⟨b, e', hSub, hBegin, hEnd⟩
    rcases List.sublist_cons_iff.mp hSub with hLater | ⟨r, hEq, hLater⟩
    · exact Or.inl ⟨b, e', hLater, hBegin, hEnd⟩
    · obtain ⟨rfl, rfl⟩ := List.cons.inj hEq
      exact Or.inr ⟨hBegin, e', List.singleton_sublist.mp hLater, hEnd⟩
  · rintro (⟨b, e', hSub, hMarks⟩ | ⟨hBegin, e', hMem, hEnd⟩)
    · exact ⟨b, e', hSub.cons _, hMarks⟩
    · exact ⟨e, e', (List.singleton_sublist.mpr hMem).cons_cons _, hBegin, hEnd⟩

/-- What the turn over the first entry leaves to be found. -/
theorem markedFrom_cons {active' : Bool}
    (hActive : active' = true ↔ active = true ∨ e.isText "__hostlink_begin") :
    MarkedFrom active (e :: es) ↔
      active' = true ∧ e.isText "__hostlink_end" ∨ MarkedFrom active' es := by
  rw [MarkedFrom, MarkedFrom, marked_cons, hActive]
  simp only [List.mem_cons, exists_eq_or_imp]
  constructor
  · rintro (⟨hOn, hEnd | hLater⟩ | hMarked | ⟨hBegin, hLater⟩)
    · exact Or.inl ⟨Or.inl hOn, hEnd⟩
    · exact Or.inr (Or.inl ⟨Or.inl hOn, hLater⟩)
    · exact Or.inr (Or.inr hMarked)
    · exact Or.inr (Or.inl ⟨Or.inr hBegin, hLater⟩)
  · rintro (⟨hOn | hBegin, hEnd⟩ | ⟨hOn | hBegin, hLater⟩ | hMarked)
    · exact Or.inl ⟨hOn, Or.inl hEnd⟩
    · exact absurd hEnd (not_both hBegin)
    · exact Or.inl ⟨hOn, Or.inr hLater⟩
    · exact Or.inr (Or.inr ⟨hBegin, hLater⟩)
    · exact Or.inr (Or.inl hMarked)

/-- In memory that can all be accessed nothing stops the linking of a symbol. -/
theorem linkSym_open (A : HostAddr) (r : SymRead) (st : Linking) :
    ∃ st', linkSym openAccess A r st = some st' := by
  have hPatch : ∀ addr funaddr, ∃ st', patchcode openAccess addr funaddr st = some st' := by
    intro addr funaddr
    unfold patchcode
    rw [if_neg (by simp [openAccess])]
    split
    · exact ⟨_, rfl⟩
    rw [if_neg (by simp [openAccess])]
    split
    · exact ⟨_, rfl⟩
    rw [if_neg (by simp [openAccess])]
    exact ⟨_, rfl⟩
  rw [linkSym_eq]
  cases pttNames.find? fun n => ascii n.1 = cstring r.symname with
  | none => exact ⟨st, rfl⟩
  | some n => exact hPatch _ _

/-- What the loop finds in the entry; it reads the entry and nothing behind it. -/
def RawEntry.found (e : RawEntry) : SymRead := ⟨e.addr, e.type - 0x80, e.body, e.bytes.length⟩

/-- An entry of the table has the name that a turn finds. -/
theorem isText_found (e : RawEntry) (name : String) : e.found.isText name = true ↔ e.isText name := by
  have hSelf := isText_raw e [] name
  rwa [List.append_nil] at hSelf

/-- One turn of the loop over a complete entry, in front of the later turns `next`. -/
def RawEntry.turn (acc : Access) (A : HostAddr) (ssyms symp : Nat) (e : RawEntry) (active : Bool)
    (st : Linking) (next : Bool → Linking → Option (List Nat × Linking)) :
    Option (List Nat × Linking) :=
  let active := active || e.found.isText "__hostlink_begin"
  if active && e.found.isText "__hostlink_end" then some ([symp], st)
  else
    match if active && e.found.stype == ch 'T' then linkSym acc A e.found st else some st with
    | none => none
    | some st =>
      if symp + e.found.symsize ≥ ssyms then some ([symp], st)
      else (next active st).map fun run => (symp :: run.1, run.2)

/-- A turn of the loop, on the entry at the cursor. -/
theorem linkLoop_turn {rest : List Byte} (hMem : filled.drop symp = e.bytes ++ rest) :
    linkLoop acc A filled ssyms (n + 1) symp active st =
      e.turn acc A ssyms symp active st (linkLoop acc A filled ssyms n (symp + e.bytes.length)) := by
  -- what is read of the name stands in the entry
  have hText : ∀ name,
      (⟨e.addr, e.type - 0x80, e.body ++ rest, e.bytes.length⟩ : SymRead).isText name =
        e.found.isText name := by
    intro name
    rw [Bool.eq_iff_iff, isText_raw, isText_found]
  have hLink : ∀ b : Bool, (if b && e.type - 0x80 == ch 'T' then
        linkSym acc A ⟨e.addr, e.type - 0x80, e.body ++ rest, e.bytes.length⟩ st else some st) =
      if b && e.found.stype == ch 'T' then linkSym acc A e.found st else some st := by
    intro b
    have hType : e.found.stype = e.type - 0x80 := rfl
    rw [hType]
    by_cases hIs : e.type - 0x80 = ch 'T'
    · rw [linkSym_eq, linkSym_eq]
      simp only [cstring_raw e hIs, RawEntry.found]
      rfl
    · have hOther : (e.type - 0x80 == ch 'T') = false := beq_false_of_ne hIs
      rw [hOther, Bool.and_false, if_neg Bool.false_ne_true, if_neg Bool.false_ne_true]
  have hSize : e.found.symsize = e.bytes.length := rfl
  rw [linkLoop, hMem, readSym_raw, RawEntry.turn, hSize]
  dsimp only
  rw [hText, hText, hLink]
  -- the two sides go on alike, after whatever the linking has come to
  generalize (if (active || e.found.isText "__hostlink_begin") && e.found.stype == ch 'T' then
    linkSym acc A e.found st else some st) = linked
  cases linked with
  | none => rfl
  | some st1 =>
    dsimp only
    generalize linkLoop acc A filled ssyms n (symp + e.bytes.length) _ st1 = later
    cases later with
    | none => rfl
    | some run => rfl

/-- Whether a turn goes well in memory that can all be accessed. -/
theorem linkLoop_raw (A : HostAddr) (ssyms n : Nat) (active : Bool) (st : Linking) {rest : List Byte}
    (hMem : filled.drop symp = e.bytes ++ rest) :
    ∃ (active' : Bool) (st' : Linking),
      (active' = true ↔ active = true ∨ e.isText "__hostlink_begin") ∧
      ((linkLoop openAccess A filled ssyms (n + 1) symp active st).isSome ↔
        active' = true ∧ e.isText "__hostlink_end" ∨ symp + e.bytes.length ≥ ssyms ∨
          (linkLoop openAccess A filled ssyms n (symp + e.bytes.length) active' st').isSome) := by
  -- linking cannot fail here, so the turn depends on the marks and on the size
  obtain ⟨st1, hLink⟩ : ∃ st1, (if (active || e.found.isText "__hostlink_begin") &&
      e.found.stype == ch 'T' then linkSym openAccess A e.found st else some st) = some st1 := by
    split
    · exact linkSym_open A e.found st
    · exact ⟨st, rfl⟩
  refine ⟨active || e.found.isText "__hostlink_begin", st1, ?_, ?_⟩
  · rw [Bool.or_eq_true, isText_found]
  have hSize : e.found.symsize = e.bytes.length := rfl
  rw [linkLoop_turn hMem, RawEntry.turn, hSize]
  simp only [hLink]
  by_cases hEnd : ((active || e.found.isText "__hostlink_begin") && e.found.isText "__hostlink_end") = true
  · rw [if_pos hEnd]
    rw [Bool.and_eq_true, isText_found e "__hostlink_end"] at hEnd
    exact iff_of_true rfl (Or.inl hEnd)
  · rw [if_neg hEnd]
    rw [Bool.and_eq_true, isText_found e "__hostlink_end"] at hEnd
    rw [or_iff_right hEnd]
    by_cases hLast : symp + e.bytes.length ≥ ssyms
    · rw [if_pos hLast]
      exact iff_of_true rfl (Or.inl hLast)
    · rw [if_neg hLast, or_iff_right hLast, Option.isSome_map]

/-- A turn that has a result keeps it when more of the later turns have one. -/
theorem RawEntry.turn_mono {next next' : Bool → Linking → Option (List Nat × Linking)}
    {run : List Nat × Linking} (hNext : ∀ b s r, next b s = some r → next' b s = some r)
    (h : e.turn acc A ssyms symp active st next = some run) :
    e.turn acc A ssyms symp active st next' = some run := by
  unfold RawEntry.turn at h ⊢
  dsimp only at h ⊢
  split at h
  -- the end mark ends the walk with both
  · rename_i hEnd
    rw [if_pos hEnd]
    exact h
  · rename_i hEnd
    rw [if_neg hEnd]
    split at h
    · cases h
    · split at h
      · rename_i hLast
        rw [if_pos hLast]
        exact h
      · rename_i hLast
        rw [if_neg hLast]
        obtain ⟨r, hr, rfl⟩ := Option.map_eq_some_iff.mp h
        rw [hNext _ _ r hr, Option.map_some]

/-- Complete entries with the two marks, or to the end of the table, keep the loop inside. -/
theorem linkLoop_inside (hEntries : es ≠ []) (hMem : filled.drop symp = es.flatMap RawEntry.bytes ++ tail)
    (hEnd : MarkedFrom active es ∨ ssyms ≤ symp + (es.flatMap RawEntry.bytes).length)
    (hFuel : es.length ≤ n) : (linkLoop openAccess A filled ssyms n symp active st).isSome := by
  induction es generalizing n symp active st with
  | nil => exact absurd rfl hEntries
  | cons e es ih =>
    rw [List.length_cons] at hFuel
    obtain ⟨n, rfl⟩ : ∃ m, n = m + 1 := ⟨n - 1, by omega⟩
    rw [List.flatMap_cons, List.append_assoc] at hMem
    rw [List.flatMap_cons, List.length_append] at hEnd
    obtain ⟨active', st', hActive, hTurn⟩ := linkLoop_raw A ssyms n active st hMem
    rw [markedFrom_cons hActive] at hEnd
    rw [hTurn]
    by_cases hStop : active' = true ∧ e.isText "__hostlink_end" ∨ symp + e.bytes.length ≥ ssyms
    · exact hStop.imp_right Or.inl
    rw [not_or] at hStop
    right; right
    have hLater : MarkedFrom active' es ∨
        ssyms ≤ symp + e.bytes.length + (es.flatMap RawEntry.bytes).length := by
      rcases hEnd with (hHere | hMarked) | hSize
      · exact absurd hHere hStop.1
      · exact Or.inl hMarked
      · exact Or.inr (by omega)
    refine ih ?_ ?_ hLater (by omega)
    · rintro rfl
      -- no mark is left, and this was the end of the table
      rcases hLater with (⟨-, e', hMem', -⟩ | ⟨b, e', hSub, -⟩) | hSize
      · exact absurd hMem' List.not_mem_nil
      · cases hSub
      · exact hStop.2 (by simpa using hSize)
    · rw [← List.drop_drop, hMem, List.drop_left]

/-- A loop that stays inside has complete entries before it. -/
theorem inside_of_linkLoop (h : (linkLoop openAccess A filled ssyms n symp active st).isSome) :
    ∃ es tail, es ≠ [] ∧ filled.drop symp = es.flatMap RawEntry.bytes ++ tail ∧
      (MarkedFrom active es ∨ ssyms ≤ symp + (es.flatMap RawEntry.bytes).length) := by
  induction n generalizing symp active st with
  | zero => cases h
  | succ n ih =>
    cases hRead : readSym (filled.drop symp) with
    | none => simp [linkLoop, hRead] at h
    | some r =>
      obtain ⟨e, rest, hMem⟩ := readSym_entryAt hRead
      obtain ⟨active', st', hActive, hTurn⟩ := linkLoop_raw A ssyms n active st hMem
      have hOne : filled.drop symp = [e].flatMap RawEntry.bytes ++ rest := by
        rw [List.flatMap_singleton, hMem]
      -- the loop ends at this entry, or goes on over the later ones
      rcases hTurn.mp h with hEnd | hLast | hNext
      · exact ⟨[e], rest, List.cons_ne_nil _ _, hOne, Or.inl ((markedFrom_cons hActive).mpr (Or.inl hEnd))⟩
      · exact ⟨[e], rest, List.cons_ne_nil _ _, hOne, Or.inr (by rwa [List.flatMap_singleton])⟩
      · obtain ⟨es, tail, -, hLater, hEnd⟩ := ih hNext
        refine ⟨e :: es, tail, List.cons_ne_nil _ _, ?_, ?_⟩
        · rw [← List.drop_drop, hMem, List.drop_left] at hLater
          rw [hMem, hLater, List.flatMap_cons, List.append_assoc]
        · rw [markedFrom_cons hActive, List.flatMap_cons, List.length_append]
          rcases hEnd with hMarked | hSize
          · exact Or.inl (Or.inr hMarked)
          · exact Or.inr (by omega)

/-- What lies behind the filled bytes does not matter to a loop that stays inside. -/
theorem linkLoop_above {visited : List Nat} {st' : Linking} (above : List Byte)
    (h : linkLoop acc A filled ssyms n symp active st = some (visited, st')) :
    linkLoop acc A (filled ++ above) ssyms n symp active st = some (visited, st') := by
  induction n generalizing symp active st visited st' with
  | zero => cases h
  | succ n ih =>
    cases hRead : readSym (filled.drop symp) with
    | none => simp [linkLoop, hRead] at h
    | some r =>
      obtain ⟨e, rest, hMem⟩ := readSym_entryAt hRead
      -- the cursor has not passed the filled bytes, for an entry begins there
      have hIn : symp ≤ filled.length := by
        by_contra hOut
        rw [List.drop_eq_nil_iff.mpr (by omega)] at hMem
        have hLen := congrArg List.length hMem
        rw [List.length_append, e.length_bytes, List.length_nil] at hLen
        omega
      have hMore : (filled ++ above).drop symp = e.bytes ++ (rest ++ above) := by
        rw [List.drop_append_of_le_length hIn, hMem, List.append_assoc]
      rw [linkLoop_turn hMem] at h
      rw [linkLoop_turn hMore]
      exact RawEntry.turn_mono (fun b s r hr => ih hr) h

end

/-- Whatever the table holds, whatever its size and however much of it was filled: the loop
comes to its end and reads filled bytes only, exactly when these begin with complete entries
which have the two marks or are the whole table. Then what lies behind does not matter. -/
theorem symbol_scan_exact (A : HostAddr) (text : Memory) (a : SymArea) :
    ((linkTable openAccess A a.filled a.ssyms text).isSome ↔ a.Whole) ∧
    ∀ acc above visited st, linkTable acc A a.filled a.ssyms text = some (visited, st) →
      linkTable acc A (a.filled ++ above) a.ssyms text = some (visited, st) := by
  have hFits := a.fits
  refine ⟨⟨fun h => ?_, ?_⟩, fun acc above visited st h => linkLoop_above above h⟩
  · obtain ⟨es, tail, hEntries, hMem, hEnd⟩ := inside_of_linkLoop h
    refine ⟨es, tail, hEntries, hMem, ?_⟩
    rcases hEnd with (⟨hOn, -⟩ | hMarked) | hSize
    · exact absurd hOn Bool.false_ne_true
    · exact Or.inl hMarked
    · -- the entries cannot be longer than the table
      right
      have hLen := congrArg List.length hMem
      rw [List.drop_zero, List.length_append] at hLen
      omega
  · rintro ⟨es, tail, hEntries, hMem, hEnd⟩
    -- every entry has bytes, so the loop has fuel for all of them
    have hFuel : es.length ≤ a.ssyms + 1 := by
      have hPart := length_le_bytes es
      have hLen := congrArg List.length hMem
      rw [List.length_append] at hLen
      omega
    exact linkLoop_inside hEntries hMem (hEnd.imp Or.inr fun hSize => by omega) hFuel

/-- An empty table: the first turn is made all the same. And a table of which the last byte was
not read. -/
theorem symbol_scan_leaves :
    linkTable openAccess smallAddr [] 0 stubText = none ∧
      linkTable openAccess smallAddr (encodeAll (smallTable (0, 1) (by decide))).dropLast
        (encodeAll (smallTable (0, 1) (by decide))).length stubText = none :=
  ⟨rfl, by decide +kernel⟩

end Glendum
