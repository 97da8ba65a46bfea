import Glendum.Lib.CString

/-!
# getfields

`getfields` of the C library cuts a string into fields at a separator, in place, with
adjacent separators taken as one: it writes a NUL over each separator it passes and
stops at the first separator behind the last field that it may report, which therefore
keeps the rest of the string. `fields` is the list of the fields as strings.

* `getfields_spec` — the fields stand in the buffer where the answer says;
* `fields_eq_tokens` — they are the pieces of the string between separators;
* `fields_full` — but the last one that may be reported keeps the separators behind it;
* `fields_lines`, `fields_lines_full` — the same for lines that each end in a separator.
-/

namespace Machine

/-! ## The function -/

/-- The loop of `getfields` from the byte at `pos` on. `start` is where the next field
would start; `args` are the fields found so far. -/
def getfieldsLoop (sep : Byte) (max : Nat) :
    Nat → List Byte → Nat → Nat → Bool → List Nat → List Byte × List Nat
  | 0, buf, _, _, _, args => (buf, args)
  | fuel + 1, buf, pos, start, intok, args =>
    let r := buf.getD pos 0
    if r = 0 then (buf, args)
    else if r = sep then
      if args.length ≥ max then (buf, args)
      else getfieldsLoop sep max fuel (buf.set pos 0) (pos + 1) (pos + 1) false args
    else
      getfieldsLoop sep max fuel buf (pos + 1) start true (if intok then args else args ++ [start])

/-- `getfields(str, args, max, 1, set)` with one separator, a byte of ASCII: no rune of
more bytes has such a byte in it. -/
def getfields (buf : List Byte) (pos max : Nat) (sep : Byte) : List Byte × List Nat :=
  if max = 0 then (buf, []) else getfieldsLoop sep max buf.length buf pos pos false []

/-- The bytes are split in place, so the buffer keeps its length. -/
theorem length_getfieldsLoop (sep : Byte) (max fuel : Nat) (buf : List Byte) (pos start : Nat)
    (intok : Bool) (args : List Nat) :
    (getfieldsLoop sep max fuel buf pos start intok args).1.length = buf.length := by
  induction fuel generalizing buf pos start intok args with
  | zero => rfl
  | succ fuel ih =>
    rw [getfieldsLoop]
    split
    · rfl
    · split
      · split
        · rfl
        · rw [ih, List.length_set]
      · exact ih ..

/-- The call does not change the length of the buffer. -/
theorem length_getfields (buf : List Byte) (pos max : Nat) (sep : Byte) :
    (getfields buf pos max sep).1.length = buf.length := by
  rw [getfields]
  split
  · rfl
  · exact length_getfieldsLoop ..

/-! ## The fields of a string -/

/-- At most `max` fields of the string. -/
def fields (sep : Byte) : Nat → List Byte → List (List Byte)
  | 0, _ => []
  | max + 1, s =>
    let s := s.dropWhile (· == sep)
    if s = [] then []
    else if max = 0 then [s]
    else s.takeWhile (· != sep) :: fields sep max (s.dropWhile (· != sep))

section

variable {sep : Byte} {max : Nat} {s cur r : List Byte}

/-- Nothing has no fields. -/
@[simp] theorem fields_nil : fields sep max [] = [] := by
  cases max <;> simp [fields]

/-- A separator in front is skipped. -/
theorem fields_sep : fields sep max (sep :: r) = fields sep max r := by
  cases max <;> simp [fields]

/-- The first byte of a field that is no separator. -/
theorem dropWhile_field (hCur : cur ≠ []) (hSep : sep ∉ cur) :
    (cur ++ r).dropWhile (· == sep) = cur ++ r := by
  cases cur with
  | nil => exact absurd rfl hCur
  | cons c cur =>
    rw [List.mem_cons, not_or] at hSep
    rw [List.cons_append, List.dropWhile_cons_of_neg]
    simpa using Ne.symm hSep.1

/-- A piece without a separator is taken as a whole. -/
theorem all_ne_of_notMem (hSep : sep ∉ cur) : ∀ x ∈ cur, (x != sep) = true := by
  intro x hx
  simp only [bne_iff_ne, ne_eq]
  rintro rfl
  exact hSep hx

/-- The last field that is asked for takes all the rest, separators included. -/
theorem fields_last (hCur : cur ≠ []) (hSep : sep ∉ cur) : fields sep 1 (cur ++ r) = [cur ++ r] := by
  have hNe : cur ++ r ≠ [] := by simp [hCur]
  simp only [fields, dropWhile_field hCur hSep, if_neg hNe, if_true]

/-- A piece without a separator is one field. -/
theorem fields_whole (hCur : cur ≠ []) (hSep : sep ∉ cur) :
    fields sep (max + 1) cur = [cur] := by
  have hDrop := dropWhile_field (r := []) hCur hSep
  rw [List.append_nil] at hDrop
  simp only [fields, hDrop, if_neg hCur, List.takeWhile_eq_self_iff.mpr (all_ne_of_notMem hSep),
    List.dropWhile_eq_nil_iff.mpr (all_ne_of_notMem hSep), fields_nil, ite_self]

/-- A piece, a separator and the rest. -/
theorem fields_cons (hCur : cur ≠ []) (hSep : sep ∉ cur) :
    fields sep (max + 2) (cur ++ sep :: r) = cur :: fields sep (max + 1) r := by
  have hNe : cur ++ sep :: r ≠ [] := by simp
  have hTake : (cur ++ sep :: r).takeWhile (· != sep) = cur := by
    rw [List.takeWhile_append_of_pos (all_ne_of_notMem hSep), List.takeWhile_cons_of_neg (by simp),
      List.append_nil]
  have hDrop : (cur ++ sep :: r).dropWhile (· != sep) = sep :: r := by
    rw [List.dropWhile_append_of_pos (all_ne_of_notMem hSep), List.dropWhile_cons_of_neg (by simp)]
  rw [fields]
  simp only [dropWhile_field hCur hSep, if_neg hNe, hTake, hDrop, fields_sep,
    Nat.succ_ne_zero, if_false]

end

/-! ## Where the fields stand -/

section

variable {sep : Byte} {max lo start : Nat} {buf : List Byte} {cur r : List Byte}

/-- What the loop leaves behind the strings in `done` and the offsets in `args0`: the
fields `fs`, each where its offset says. -/
def FieldsAt (out : List Byte × List Nat) (lo : Nat) (done : List (Nat × List Byte))
    (args0 : List Nat) (fs : List (List Byte)) : Prop :=
  ∃ l, Strs out.1 lo (done ++ l) ∧ out.2 = args0 ++ l.map Prod.fst ∧ l.map Prod.snd = fs

/-- No more fields, and the strings are as they were. -/
theorem FieldsAt.nil {done : List (Nat × List Byte)} {args0 : List Nat} (h : Strs buf lo done) :
    FieldsAt (buf, args0) lo done args0 [] :=
  ⟨[], by rwa [List.append_nil], by simp, rfl⟩

/-- The last field is the one that was begun. -/
theorem FieldsAt.last {done : List (Nat × List Byte)} {args0 : List Nat}
    (h : Strs buf lo (done ++ [(start, cur)])) :
    FieldsAt (buf, args0 ++ [start]) lo done args0 [cur] :=
  ⟨[(start, cur)], h, rfl, rfl⟩

/-- One field more in front. -/
theorem FieldsAt.cons {out : List Byte × List Nat} {done : List (Nat × List Byte)}
    {args0 : List Nat} {fs : List (List Byte)}
    (h : FieldsAt out lo (done ++ [(start, cur)]) (args0 ++ [start]) fs) :
    FieldsAt out lo done args0 (cur :: fs) := by
  obtain ⟨l, hL, hArgs, hFields⟩ := h
  refine ⟨(start, cur) :: l, ?_, hArgs.trans (List.append_assoc args0 [start] _), ?_⟩
  · rwa [List.append_assoc] at hL
  · rw [List.map_cons, hFields]

/-- The loop in the middle of the string, before its rest `r`: `cur` is the part of a field that
it has read, and the fields before are in `args0`. -/
def LoopReads (sep : Byte) (max lo : Nat) (r : List Byte) : Prop :=
  ∀ (cur buf : List Byte) (done : List (Nat × List Byte)) (args0 : List Nat) (start fuel : Nat),
    Strs buf lo (done ++ [(start, cur ++ r)]) → sep ∉ cur → args0.length < max →
    r.length < fuel →
    FieldsAt (getfieldsLoop sep max fuel buf (start + cur.length) start (!cur.isEmpty)
        (if cur.isEmpty then args0 else args0 ++ [start]))
      lo done args0 (fields sep (max - args0.length) (cur ++ r))

/-- At the NUL the field that was begun is complete. -/
theorem LoopReads.nil : LoopReads sep max lo [] := by
  intro cur buf done args0 start fuel hStrs hCur hRoom hFuel
  obtain ⟨fuel, rfl⟩ : ∃ n, fuel = n + 1 := ⟨fuel - 1, by simp at hFuel; omega⟩
  have hHere := hStrs.strs _ (List.mem_append_right _ List.mem_cons_self)
  have hEnd := StrAt.getD_nil (hHere.suffix (a := cur))
  obtain ⟨m, hm⟩ : ∃ m, max - args0.length = m + 1 := ⟨max - args0.length - 1, by omega⟩
  simp only [getfieldsLoop, hEnd, if_true]
  rw [List.append_nil] at hStrs ⊢
  cases cur with
  | nil =>
    rw [fields_nil]
    exact .nil (hStrs.sublist (by simp))
  | cons c cur =>
    rw [hm, fields_whole (by simp) hCur]
    exact .last hStrs

/-- A separator is skipped in front of a field, and behind one the next field begins, unless
it is the last one that is asked for. -/
theorem LoopReads.separator (hSep : sep ≠ 0) (h : LoopReads sep max lo r) :
    LoopReads sep max lo (sep :: r) := by
  intro cur buf done args0 start fuel hStrs hCur hRoom hFuel
  obtain ⟨fuel, rfl⟩ : ∃ n, fuel = n + 1 := ⟨fuel - 1, by simp at hFuel; omega⟩
  have hFuel' : r.length < fuel := by
    rw [List.length_cons] at hFuel
    omega
  have hHere := hStrs.strs _ (List.mem_append_right _ List.mem_cons_self)
  have hByte := StrAt.getD_cons (hHere.suffix (a := cur))
  obtain ⟨m, hm⟩ : ∃ m, max - args0.length = m + 1 := ⟨max - args0.length - 1, by omega⟩
  have hCut := hStrs.cut
  simp only [getfieldsLoop, hByte, if_neg hSep, if_true]
  cases hEmpty : cur with
  | nil =>
    subst hEmpty
    simp only [List.isEmpty_nil, if_true, if_neg (Nat.not_le.mpr hRoom)]
    simp only [List.length_nil, Nat.add_zero] at hCut ⊢
    have hNext : Strs (buf.set start 0) lo (done ++ [(start + 1, [] ++ r)]) :=
      hCut.sublist (by simp)
    rw [List.nil_append, fields_sep]
    exact h [] _ done args0 _ fuel hNext (by simp) hRoom hFuel'
  | cons x xs =>
    have hNe : cur ≠ [] := by simp [hEmpty]
    rw [← hEmpty]
    have hFlag : cur.isEmpty = false := by simp [hEmpty]
    simp only [hFlag, Bool.false_eq_true, if_false, List.length_append, List.length_singleton]
    by_cases hFull : args0.length + 1 ≥ max
    · -- the last field keeps what follows it
      obtain rfl : m = 0 := by omega
      rw [if_pos hFull]
      rw [hm, fields_last hNe hCur]
      exact .last hStrs
    · rw [if_neg hFull]
      obtain ⟨k, rfl⟩ : ∃ k, m = k + 1 := ⟨m - 1, by omega⟩
      have hNext : Strs (buf.set (start + cur.length) 0) lo
          ((done ++ [(start, cur)]) ++ [(start + cur.length + 1, r)]) := by
        rwa [List.append_assoc]
      have hRest := h [] _ _ (args0 ++ [start]) _ fuel hNext (by simp)
        (by rw [List.length_append, List.length_singleton]; omega) hFuel'
      have hLeft : max - (args0 ++ [start]).length = k + 1 := by
        rw [List.length_append, List.length_singleton]
        omega
      rw [hLeft] at hRest
      rw [hm, fields_cons hNe hCur]
      exact hRest.cons

/-- One more byte of a field. -/
theorem LoopReads.byte {c : Byte} (hC : c ≠ sep) (h : LoopReads sep max lo r) :
    LoopReads sep max lo (c :: r) := by
  intro cur buf done args0 start fuel hStrs hCur hRoom hFuel
  obtain ⟨fuel, rfl⟩ : ∃ n, fuel = n + 1 := ⟨fuel - 1, by simp at hFuel; omega⟩
  have hFuel' : r.length < fuel := by
    rw [List.length_cons] at hFuel
    omega
  have hHere := hStrs.strs _ (List.mem_append_right _ List.mem_cons_self)
  have hByte := StrAt.getD_cons (hHere.suffix (a := cur))
  have hNul : c ≠ 0 := fun h0 => hHere.clean (by simp [h0])
  simp only [getfieldsLoop, hByte, if_neg hNul, if_neg hC]
  have hCur' : sep ∉ cur ++ [c] := by
    simp only [List.mem_append, List.mem_singleton, not_or]
    exact ⟨hCur, Ne.symm hC⟩
  have hSplit : cur ++ c :: r = (cur ++ [c]) ++ r := by simp
  have hIh := h (cur ++ [c]) buf done args0 start fuel (by rwa [← hSplit]) hCur' hRoom hFuel'
  rw [← hSplit] at hIh
  -- the first byte of a field brings its offset
  have hArgs : (if (!cur.isEmpty) = true then (if cur.isEmpty then args0 else args0 ++ [start])
      else (if cur.isEmpty then args0 else args0 ++ [start]) ++ [start]) = args0 ++ [start] := by
    cases cur <;> simp
  have hFlag : (cur ++ [c]).isEmpty = false := by simp
  rw [hArgs]
  simp only [hFlag, Bool.not_false, Bool.false_eq_true, if_false, List.length_append,
    List.length_singleton, ← Nat.add_assoc] at hIh
  exact hIh

/-- The loop finds the fields of every text. -/
theorem getfieldsLoop_spec (hSep : sep ≠ 0) (r : List Byte) : LoopReads sep max lo r := by
  induction r with
  | nil => exact .nil
  | cons c r ih =>
    by_cases hC : c = sep
    · rw [hC]
      exact ih.separator hSep
    · exact ih.byte hC

/-- `getfields` leaves the fields of a string in its place, at the offsets it reports. -/
theorem getfields_spec (max : Nat) {off : Nat} {s : List Byte} (hSep : sep ≠ 0) (h : StrAt buf off s) :
    ∃ l, Strs (getfields buf off max sep).1 off l ∧ (getfields buf off max sep).2 = l.map Prod.fst ∧
      l.map Prod.snd = fields sep max s := by
  unfold getfields
  by_cases hMax : max = 0
  · subst hMax
    exact ⟨[], ⟨by simp, by simp, List.Pairwise.nil⟩, rfl, rfl⟩
  · rw [if_neg hMax]
    have hLength := h.lt_length
    exact getfieldsLoop_spec hSep s [] buf [] [] off buf.length (Strs.singleton h) (by simp)
      (Nat.pos_of_ne_zero hMax) (by omega)

end

/-! ## Fields of lines -/

section

variable {sep : Byte} {max : Nat} {lines : List (List Byte)}

/-- Lines that each end in a separator are the fields, if there is room for more. -/
theorem fields_lines (hLines : ∀ l ∈ lines, l ≠ [] ∧ sep ∉ l) (hRoom : lines.length < max) :
    fields sep max (lines.flatMap (· ++ [sep])) = lines := by
  induction lines generalizing max with
  | nil => exact fields_nil
  | cons l lines ih =>
    obtain ⟨m, rfl⟩ : ∃ m, max = m + 2 := ⟨max - 2, by rw [List.length_cons] at hRoom; omega⟩
    obtain ⟨hNe, hSep⟩ := hLines l List.mem_cons_self
    rw [List.length_cons] at hRoom
    rw [List.flatMap_cons, List.append_assoc, List.singleton_append, fields_cons hNe hSep,
      ih (fun l' hl' => hLines l' (List.mem_cons_of_mem _ hl')) (by omega)]

/-- If there is not, the last field is all the lines that are left. -/
theorem fields_lines_full (hLines : ∀ l ∈ lines, l ≠ [] ∧ sep ∉ l) (hFull : max < lines.length) :
    fields sep (max + 1) (lines.flatMap (· ++ [sep])) =
      lines.take max ++ [(lines.drop max).flatMap (· ++ [sep])] := by
  induction lines generalizing max with
  | nil => simp at hFull
  | cons l lines ih =>
    obtain ⟨hNe, hSep⟩ := hLines l List.mem_cons_self
    rw [List.length_cons] at hFull
    cases max with
    | zero =>
      rw [List.flatMap_cons, List.append_assoc, fields_last hNe hSep]
      simp
    | succ m =>
      rw [List.flatMap_cons, List.append_assoc, List.singleton_append, fields_cons hNe hSep,
        ih (fun l' hl' => hLines l' (List.mem_cons_of_mem _ hl')) (by omega), List.take_succ_cons,
        List.drop_succ_cons, List.cons_append]

end

/-! ## Fields and pieces -/

/-- The pieces between separators, less the empty ones. -/
def tokens (sep : Byte) (s : List Byte) : List (List Byte) := (s.splitOn sep).filter (· ≠ [])

section

variable {sep : Byte} {max : Nat} {s cur r : List Byte}

/-- A string is empty, or it begins with a separator, or with a field. -/
@[elab_as_elim]
theorem fields_induction (sep : Byte) {motive : List Byte → Prop} (nil : motive [])
    (skip : ∀ r, motive r → motive (sep :: r))
    (last : ∀ cur, cur ≠ [] → sep ∉ cur → motive cur)
    (field : ∀ cur r, cur ≠ [] → sep ∉ cur → motive r → motive (cur ++ sep :: r)) (s : List Byte) :
    motive s := by
  -- by the length of what is left
  induction hLen : s.length using Nat.strong_induction_on generalizing s with
  | _ n ih =>
    by_cases hMem : sep ∈ s
    · obtain ⟨cur, r, rfl, hSep⟩ := List.eq_append_cons_of_mem hMem
      have hShort : r.length < n := by
        rw [← hLen, List.length_append, List.length_cons]
        omega
      have hRest := ih r.length hShort r rfl
      by_cases hCur : cur = []
      · subst hCur
        exact skip r hRest
      · exact field cur r hCur hSep hRest
    · by_cases hNil : s = []
      · rw [hNil]
        exact nil
      · exact last s hNil hMem

/-- Nothing has no tokens. -/
@[simp] theorem tokens_nil : tokens sep [] = [] := rfl

/-- A separator is no token. -/
theorem tokens_sep : tokens sep (sep :: r) = tokens sep r := by
  simp [tokens, List.splitOn_cons_eq_if_modifyHead]

/-- A piece without a separator is one token. -/
theorem tokens_whole (hCur : cur ≠ []) (hSep : sep ∉ cur) : tokens sep cur = [cur] := by
  simp [tokens, List.splitOn_eq_singleton hSep, hCur]

/-- A piece, a separator and the rest. -/
theorem tokens_cons (hCur : cur ≠ []) (hSep : sep ∉ cur) :
    tokens sep (cur ++ sep :: r) = cur :: tokens sep r := by
  simp [tokens, List.splitOn_append_cons_self_of_not_mem hSep, hCur]

/-- Without tokens there are separators only. -/
theorem tokens_eq_nil (h : tokens sep s = []) : ∀ x ∈ s, x = sep := by
  induction s using fields_induction sep with
  | nil => simp
  | skip r ih =>
    rw [tokens_sep] at h
    intro x hx
    rcases List.mem_cons.mp hx with rfl | hx
    · rfl
    · exact ih h x hx
  | last cur hCur hSep => simp [tokens_whole hCur hSep] at h
  | field cur r hCur hSep _ => simp [tokens_cons hCur hSep] at h

/-- A string has at least the pieces of its end. -/
theorem length_tokens_append (a : List Byte) :
    (tokens sep s).length ≤ (tokens sep (a ++ s)).length := by
  induction a with
  | nil => exact Nat.le_refl _
  | cons c a ih =>
    refine ih.trans ?_
    rw [List.cons_append]
    generalize a ++ s = t
    obtain ⟨p, ps, hSplit⟩ := List.exists_cons_of_ne_nil (List.splitOn_ne_nil sep t)
    rw [tokens, tokens, List.splitOn_cons_eq_if_modifyHead, hSplit]
    by_cases hC : c = sep
    · simp [hC]
    · -- the byte belongs to the first piece
      simp only [beq_iff_eq, hC, if_false, List.modifyHead_cons, List.filter_cons]
      split <;> simp

/-- Separators only end in one. -/
theorem getLast?_sep (hNe : s ≠ []) (hAll : ∀ x ∈ s, x = sep) : s.getLast? = some sep := by
  rw [List.getLast?_eq_getLast_of_ne_nil hNe, hAll _ (List.getLast_mem hNe)]

/-- If there is room for more fields, or if no separator follows the last one, the fields
are the pieces. -/
theorem fields_eq_tokens (hRoom : (tokens sep s).length ≤ max)
    (hEnd : (tokens sep s).length = max → s.getLast? ≠ some sep) :
    fields sep max s = tokens sep s := by
  induction s using fields_induction sep generalizing max with
  | nil => simp
  | skip r ih =>
    rw [tokens_sep] at *
    rw [fields_sep]
    refine ih hRoom fun hFull hLast => hEnd hFull ?_
    rw [List.getLast?_cons, hLast, Option.getD_some]
  | last cur hCur hSep =>
    rw [tokens_whole hCur hSep] at *
    obtain ⟨m, rfl⟩ : ∃ m, max = m + 1 := ⟨max - 1, by simp at hRoom; omega⟩
    exact fields_whole hCur hSep
  | field cur r hCur hSep ih =>
    rw [tokens_cons hCur hSep] at *
    rw [List.length_cons] at hRoom hEnd
    obtain ⟨m, rfl⟩ : ∃ m, max = m + 1 := ⟨max - 1, by omega⟩
    have hLast : r.getLast? = some sep → (cur ++ sep :: r).getLast? = some sep := by
      intro hLast
      rw [List.getLast?_append, List.getLast?_cons, hLast]
      rfl
    cases m with
    | zero =>
      -- the only field would be followed by a separator
      have hNone : tokens sep r = [] := List.eq_nil_of_length_eq_zero (by omega)
      refine absurd ?_ (hEnd (by rw [hNone]; rfl))
      by_cases hNil : r = []
      · simp [hNil]
      · exact hLast (getLast?_sep hNil (tokens_eq_nil hNone))
    | succ m =>
      rw [fields_cons hCur hSep, ih (by omega) fun hFull hSepLast =>
        hEnd (by omega) (hLast hSepLast)]

/-- If the last field that may be reported is followed by separators, it keeps them. -/
theorem fields_full (hFull : (tokens sep s).length = max) (hPos : 0 < max)
    (hEnd : s.getLast? = some sep) :
    ∃ init last z, tokens sep s = init ++ [last] ∧ z ≠ [] ∧ (∀ x ∈ z, x = sep) ∧
      fields sep max s = init ++ [last ++ z] := by
  induction s using fields_induction sep generalizing max with
  | nil => simp at hEnd
  | skip r ih =>
    rw [tokens_sep] at *
    rw [fields_sep]
    -- separators alone have no field
    have hNe : r ≠ [] := by
      rintro rfl
      rw [tokens_nil, List.length_nil] at hFull
      omega
    refine ih hFull hPos ?_
    rwa [List.getLast?_cons_of_ne_nil hNe] at hEnd
  | last cur hCur hSep =>
    exact absurd (List.mem_of_getLast? hEnd) hSep
  | field cur r hCur hSep ih =>
    rw [tokens_cons hCur hSep] at *
    rw [List.length_cons] at hFull
    subst hFull
    cases hTokens : tokens sep r with
    | nil =>
      -- the last field: the count is reached before its end is cut
      refine ⟨[], cur, sep :: r, rfl, by simp, ?_, ?_⟩
      · intro x hx
        rcases List.mem_cons.mp hx with rfl | hx
        · rfl
        · exact tokens_eq_nil hTokens x hx
      · exact fields_last hCur hSep
    | cons t ts =>
      have hNe : r ≠ [] := by
        rintro rfl
        simp at hTokens
      rw [List.getLast?_append, List.getLast?_cons_of_ne_nil hNe] at hEnd
      have hLast : r.getLast? = some sep := by
        rw [List.getLast?_eq_getLast_of_ne_nil hNe] at hEnd ⊢
        exact hEnd
      obtain ⟨init, last, z, hInit, hZ, hAll, hFields⟩ := ih rfl (by rw [hTokens]; simp) hLast
      refine ⟨cur :: init, last, z, ?_, hZ, hAll, ?_⟩
      · rw [← hTokens, hInit]
        rfl
      · rw [List.length_cons, fields_cons hCur hSep, ← List.length_cons, ← hTokens, hFields]
        rfl

end

end Machine
