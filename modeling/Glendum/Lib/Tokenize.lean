import Glendum.Lib.CString

/-!
# tokenize

`tokenize` of the C library cuts a string at white space, in place. A token may have
quoted parts; their quotes are taken out, so that the bytes behind them move forward.
The NUL behind a token is written only where the string does not end anyway.

* `tokenize_whole` — a string of at most one plain token is left as it is;
* `tokenize_cuts` — any other string gets a NUL before its end;
* `tokenize_congr` — the call reads and writes the string only.
-/

namespace Machine

/-- `qsep`, the separators. -/
def qsep : List Byte := [ch ' ', ch '\t', ch '\r', ch '\n']

/-- The quote. -/
def quote : Byte := 0x27

/-- The loop of `qtoken`: `s` is where the token is written, `t` where it is read. -/
def qtokenLoop : Nat → List Byte → Nat → Nat → Bool → List Byte × Nat × Nat
  | 0, buf, s, t, _ => (buf, s, t)
  | fuel + 1, buf, s, t, quoting =>
    let c := buf.getD t 0
    if c = 0 ∨ (quoting = false ∧ c ∈ qsep) then (buf, s, t)
    else if c ≠ quote then qtokenLoop fuel (buf.set s c) (s + 1) (t + 1) quoting
    else if quoting = false then qtokenLoop fuel buf s (t + 1) true
    -- the end of a quoted part, or a doubled quote
    else if buf.getD (t + 1) 0 ≠ quote then qtokenLoop fuel buf s (t + 1) false
    else qtokenLoop fuel (buf.set s quote) (s + 1) (t + 2) quoting

def qtoken (buf : List Byte) (s : Nat) : List Byte × Nat :=
  let r := qtokenLoop buf.length buf s s false
  if r.1.getD r.2.1 0 ≠ 0 then
    (r.1.set r.2.1 0, if r.2.2 = r.2.1 then r.2.2 + 1 else r.2.2)
  else (r.1, r.2.2)

/-- The first byte from `s` on that is no separator. -/
def skipSep : Nat → List Byte → Nat → Nat
  | 0, _, s => s
  | fuel + 1, buf, s => if buf.getD s 0 ∈ qsep then skipSep fuel buf (s + 1) else s

def tokenizeLoop : Nat → List Byte → Nat → List Nat → List Byte × List Nat
  | 0, buf, _, args => (buf, args)
  | room + 1, buf, s, args =>
    let s := skipSep buf.length buf s
    if buf.getD s 0 = 0 then (buf, args)
    else
      let r := qtoken buf s
      tokenizeLoop room r.1 r.2 (args ++ [s])

/-- `tokenize(s, args, maxargs)`. -/
def tokenize (buf : List Byte) (s maxargs : Nat) : List Byte × List Nat :=
  tokenizeLoop maxargs buf s []

/-! ## Plain tokens -/

/-- What `tokenize` skips at the start of a string is followed by a plain token, with no
separator or quote in it, or by nothing. -/
def Whole (s : List Byte) : Prop := ∀ c ∈ s.dropWhile (· ∈ qsep), c ∉ qsep ∧ c ≠ quote

instance (s : List Byte) : Decidable (Whole s) := by
  unfold Whole
  infer_instance

section

variable {buf lead r s : List Byte} {off : Nat}

theorem set_getD_self {i : Nat} (hi : i < buf.length) : buf.set i (buf.getD i 0) = buf := by
  rw [List.getD_eq_getElem?_getD, List.getElem?_eq_getElem hi, Option.getD_some,
    List.set_getElem_self]

theorem skipSep_spec {fuel : Nat} (h : StrAt buf off (lead ++ r)) (hLead : ∀ c ∈ lead, c ∈ qsep)
    (hRest : ∀ c ∈ r.head?, c ∉ qsep) (hFuel : lead.length < fuel) :
    skipSep fuel buf off = off + lead.length := by
  induction lead generalizing off fuel with
  | nil =>
    obtain ⟨fuel, rfl⟩ : ∃ n, fuel = n + 1 := ⟨fuel - 1, by simp at hFuel; omega⟩
    -- the NUL is no separator either
    have hStop : buf.getD off 0 ∉ qsep := by
      cases r with
      | nil =>
        rw [StrAt.getD_nil h]
        decide
      | cons c r =>
        rw [StrAt.getD_cons h]
        exact hRest c rfl
    rw [skipSep, if_neg hStop]
    rfl
  | cons c lead ih =>
    obtain ⟨fuel, rfl⟩ : ∃ n, fuel = n + 1 := ⟨fuel - 1, by simp at hFuel; omega⟩
    rw [List.length_cons] at hFuel
    have hByte : buf.getD off 0 ∈ qsep := by
      rw [List.cons_append] at h
      rw [h.getD_cons]
      exact hLead c List.mem_cons_self
    have hNext : StrAt buf (off + 1) (lead ++ r) := StrAt.suffix (a := [c]) h
    rw [skipSep, if_pos hByte, ih hNext (fun x hx => hLead x (List.mem_cons_of_mem _ hx)) (by omega),
      List.length_cons]
    omega

theorem skipSep_str (h : StrAt buf off s) :
    skipSep buf.length buf off = off + (s.takeWhile (· ∈ qsep)).length := by
  have hSplit : s.takeWhile (· ∈ qsep) ++ s.dropWhile (· ∈ qsep) = s := List.takeWhile_append_dropWhile
  have hLength := h.lt_length
  have hLead := congrArg List.length hSplit
  rw [List.length_append] at hLead
  refine skipSep_spec (by rwa [hSplit]) (fun c hc => ?_) (fun c hc => ?_) (by omega)
  · simpa using List.mem_takeWhile_imp hc
  · have hStop := List.head?_dropWhile_not (· ∈ qsep) s
    rw [Option.mem_def.mp hc] at hStop
    simpa using hStop

/-- The tokens of a string are behind the separators it begins with. -/
theorem token_str (h : StrAt buf off s) :
    StrAt buf (off + (s.takeWhile (· ∈ qsep)).length) (s.dropWhile (· ∈ qsep)) :=
  StrAt.suffix (by rwa [List.takeWhile_append_dropWhile])

/-- A plain token is written over itself. -/
theorem qtokenLoop_plain {fuel : Nat} (h : StrAt buf off r) (hPlain : ∀ c ∈ r, c ∉ qsep ∧ c ≠ quote)
    (hFuel : r.length < fuel) :
    qtokenLoop fuel buf off off false = (buf, off + r.length, off + r.length) := by
  induction r generalizing off fuel with
  | nil =>
    obtain ⟨fuel, rfl⟩ : ∃ n, fuel = n + 1 := ⟨fuel - 1, by simp at hFuel; omega⟩
    rw [qtokenLoop, h.getD_nil, if_pos (Or.inl rfl)]
    rfl
  | cons c r ih =>
    obtain ⟨fuel, rfl⟩ : ∃ n, fuel = n + 1 := ⟨fuel - 1, by simp at hFuel; omega⟩
    rw [List.length_cons] at hFuel
    obtain ⟨hSep, hQuote⟩ := hPlain c List.mem_cons_self
    have hNul : c ≠ 0 := fun h0 => h.clean (by simp [h0])
    -- `*t++ = *s++` with both at the same byte
    have hSame : buf.set off c = buf := by
      have hIn : off < buf.length := by
        have hLength := h.lt_length
        omega
      have hSelf := set_getD_self hIn
      rwa [h.getD_cons] at hSelf
    have hNext : StrAt buf (off + 1) r := StrAt.suffix (a := [c]) h
    have hGo : ¬ (c = 0 ∨ True ∧ c ∈ qsep) := not_or.mpr ⟨hNul, fun hC => hSep hC.2⟩
    rw [qtokenLoop]
    simp only [h.getD_cons]
    rw [if_neg hGo, if_pos hQuote, hSame,
      ih hNext (fun x hx => hPlain x (List.mem_cons_of_mem _ hx)) (by omega), List.length_cons,
      show off + 1 + r.length = off + (r.length + 1) by omega]

theorem qtoken_plain (h : StrAt buf off r) (hPlain : ∀ c ∈ r, c ∉ qsep ∧ c ≠ quote) :
    qtoken buf off = (buf, off + r.length) := by
  have hEnd : buf.getD (off + r.length) 0 = 0 := by
    rw [List.getD_eq_getElem?_getD, h.nul, Option.getD_some]
  rw [qtoken, qtokenLoop_plain h hPlain (by have hLength := h.lt_length; omega)]
  simp only [hEnd, ne_eq, not_true_eq_false, if_false]

/-- The tokens of a string that is whole. -/
def wholeArgs (off : Nat) (s : List Byte) : List Nat :=
  if s.dropWhile (· ∈ qsep) = [] then [] else [off + (s.takeWhile (· ∈ qsep)).length]

/-- A string of at most one plain token is left as it is. -/
theorem tokenize_whole {room : Nat} (h : StrAt buf off s) (hWhole : Whole s) :
    tokenize buf off (room + 1) = (buf, wholeArgs off s) := by
  have hToken := token_str h
  have hSkip := skipSep_str h
  have hLength := h.lt_length
  unfold Whole at hWhole
  rw [wholeArgs, tokenize, tokenizeLoop, hSkip]
  generalize (s.takeWhile (· ∈ qsep)).length = n at hToken hSkip
  generalize s.dropWhile (· ∈ qsep) = r at hToken hWhole
  cases r with
  | nil => rw [hToken.getD_nil, if_pos rfl, if_pos rfl]
  | cons c r =>
    have hNul : c ≠ 0 := fun h0 => hToken.clean (by simp [h0])
    rw [hToken.getD_cons, if_neg hNul, qtoken_plain hToken hWhole, if_neg (by simp), List.nil_append]
    -- the token ends at the end of the string, where the next round stops
    cases room with
    | zero => rfl
    | succ room =>
      have hEnd : StrAt buf (off + n + (c :: r).length) ([] ++ []) :=
        StrAt.suffix (a := c :: r) (by simpa using hToken)
      have hStay : skipSep buf.length buf (off + n + (c :: r).length) =
          off + n + (c :: r).length :=
        skipSep_spec hEnd (by simp) (by simp) (Nat.zero_lt_of_lt hLength)
      simp only [tokenizeLoop, hStay, hEnd.getD_nil, if_true]

/-! ## Other strings -/

/-- The loop writes nothing before its output pointer, and its pointers move forward. -/
theorem qtokenLoop_before (fuel : Nat) (buf : List Byte) (s t : Nat) (quoting : Bool) :
    (∀ i < s, (qtokenLoop fuel buf s t quoting).1[i]? = buf[i]?) ∧
      s ≤ (qtokenLoop fuel buf s t quoting).2.1 ∧ t ≤ (qtokenLoop fuel buf s t quoting).2.2 := by
  induction fuel generalizing buf s t quoting with
  | zero => exact ⟨fun _ _ => rfl, le_refl _, le_refl _⟩
  | succ fuel ih =>
    -- a byte that is written counts from the next one on
    have hWrite : ∀ (x : Byte) (k : Nat) (q : Bool),
        (∀ i < s, (qtokenLoop fuel (buf.set s x) (s + 1) (t + k) q).1[i]? = buf[i]?) ∧
          s ≤ (qtokenLoop fuel (buf.set s x) (s + 1) (t + k) q).2.1 ∧
          t ≤ (qtokenLoop fuel (buf.set s x) (s + 1) (t + k) q).2.2 := by
      intro x k q
      obtain ⟨hSame, hS, hT⟩ := ih (buf.set s x) (s + 1) (t + k) q
      refine ⟨fun i hi => ?_, by omega, by omega⟩
      rw [hSame i (by omega), List.getElem?_set_ne (by omega)]
    have hSkip : ∀ q : Bool, (∀ i < s, (qtokenLoop fuel buf s (t + 1) q).1[i]? = buf[i]?) ∧
        s ≤ (qtokenLoop fuel buf s (t + 1) q).2.1 ∧ t ≤ (qtokenLoop fuel buf s (t + 1) q).2.2 := by
      intro q
      obtain ⟨hSame, hS, hT⟩ := ih buf s (t + 1) q
      exact ⟨hSame, hS, by omega⟩
    rw [qtokenLoop]
    split
    · exact ⟨fun _ _ => rfl, le_refl _, le_refl _⟩
    · split
      · exact hWrite _ 1 _
      · split
        · exact hSkip true
        · split
          · exact hSkip false
          · exact hWrite _ 2 _

/-- From a string on, the output pointer keeps its distance to the input pointer, the
bytes from it on are old, and it gets to the end of the string over plain bytes only. -/
theorem qtokenLoop_after {fuel : Nat} {buf r : List Byte} {s t : Nat} {q : Bool}
    (h : StrAt buf t r) (hOrder : s ≤ t) (hFuel : r.length < fuel) :
    ((qtokenLoop fuel buf s t q).2.1 + (t - s) ≤ (qtokenLoop fuel buf s t q).2.2 ∧
        (qtokenLoop fuel buf s t q).2.2 ≤ t + r.length) ∧
      (∀ i, (qtokenLoop fuel buf s t q).2.1 ≤ i →
        (qtokenLoop fuel buf s t q).1[i]? = buf[i]?) ∧
      ((qtokenLoop fuel buf s t q).2.1 = t + r.length →
        ∀ c ∈ r, c ≠ quote ∧ (q = false → c ∉ qsep)) := by
  induction fuel generalizing buf r s t q with
  | zero => exact absurd hFuel (Nat.not_lt_zero _)
  | succ fuel ih =>
    rw [qtokenLoop]
    cases r with
    | nil =>
      rw [h.getD_nil, if_pos (Or.inl rfl)]
      refine ⟨⟨show s + (t - s) ≤ t by omega, le_refl _⟩, fun _ _ => rfl, by simp⟩
    | cons c r =>
      rw [List.length_cons] at hFuel
      have hNul : c ≠ 0 := fun h0 => h.clean (by simp [h0])
      have hNext : StrAt buf (t + 1) r := StrAt.suffix (a := [c]) h
      have hLength := h.lt_length
      rw [List.length_cons] at hLength ⊢
      -- a byte that is written over itself, or behind the input pointer, changes no rest
      have hKept : ∀ {j : Nat} {r' : List Byte} (x : Byte), t < j → StrAt buf j r' →
          StrAt (buf.set s x) j r' := fun x hj hAt => hAt.set (Or.inl (by omega)) x
      rw [h.getD_cons]
      split
      · next hStop =>
        refine ⟨⟨show s + (t - s) ≤ t by omega, Nat.le_add_right ..⟩, fun _ _ => rfl, fun hEnd => ?_⟩
        change s = t + (r.length + 1) at hEnd
        omega
      · next hGo =>
        rw [not_or] at hGo
        split
        · next hPlain =>
          obtain ⟨hGap, hSame, hEnd⟩ := ih (s := s + 1) (q := q) (hKept c (by omega) hNext)
            (by omega) (by omega)
          refine ⟨⟨by omega, by omega⟩, fun i hi => ?_, fun hAll => ?_⟩
          · have hFrom := (qtokenLoop_before fuel (buf.set s c) (s + 1) (t + 1) q).2.1
            rw [hSame i hi, List.getElem?_set_ne (by omega)]
          · rw [List.forall_mem_cons]
            exact ⟨⟨hPlain, fun hq hSep => hGo.2 ⟨hq, hSep⟩⟩, hEnd (by omega)⟩
        · -- behind a quote the output pointer cannot get to the end
          split
          · obtain ⟨hGap, hSame, -⟩ := ih (s := s) (q := true) hNext (by omega) (by omega)
            exact ⟨⟨by omega, by omega⟩, hSame, fun hAll => by omega⟩
          · split
            · obtain ⟨hGap, hSame, -⟩ := ih (s := s) (q := false) hNext (by omega) (by omega)
              exact ⟨⟨by omega, by omega⟩, hSame, fun hAll => by omega⟩
            · next hDouble =>
              obtain ⟨r', rfl⟩ : ∃ r', r = quote :: r' := by
                cases r with
                | nil =>
                  rw [hNext.getD_nil] at hDouble
                  exact absurd (fun h0 => by revert h0; decide) hDouble
                | cons x r' =>
                  rw [hNext.getD_cons, not_ne_iff] at hDouble
                  exact ⟨r', by rw [hDouble]⟩
              rw [List.length_cons] at *
              have hNext2 : StrAt buf (t + 2) r' := StrAt.suffix (a := [quote]) hNext
              obtain ⟨hGap, hSame, -⟩ := ih (s := s + 1) (q := q) (hKept quote (by omega) hNext2)
                (by omega) (by omega)
              refine ⟨⟨by omega, by omega⟩, fun i hi => ?_, fun hAll => by omega⟩
              have hFrom := (qtokenLoop_before fuel (buf.set s quote) (s + 1) (t + 2) q).2.1
              rw [hSame i hi, List.getElem?_set_ne (by omega)]

theorem qtoken_before (buf : List Byte) (s : Nat) :
    (∀ i < s, (qtoken buf s).1[i]? = buf[i]?) ∧ s ≤ (qtoken buf s).2 := by
  obtain ⟨hSame, hS, hT⟩ := qtokenLoop_before buf.length buf s s false
  unfold qtoken
  dsimp only
  split
  · refine ⟨fun i hi => ?_, ?_⟩
    · rw [List.getElem?_set_ne (by omega), hSame i hi]
    · split <;> omega
  · exact ⟨hSame, hT⟩

/-- A token that is not plain to the end gets its NUL inside the string. -/
theorem qtoken_cut {buf r : List Byte} {off : Nat} (h : StrAt buf off r)
    (hNot : ¬ ∀ c ∈ r, c ∉ qsep ∧ c ≠ quote) :
    ∃ i, off ≤ i ∧ i < off + r.length ∧ i < (qtoken buf off).2 ∧ (qtoken buf off).1[i]? = some 0 := by
  have hLength := h.lt_length
  obtain ⟨-, hS, hT⟩ := qtokenLoop_before buf.length buf off off false
  obtain ⟨hGap, hSame, hEnd⟩ := qtokenLoop_after (q := false) h (le_refl _)
    (show r.length < buf.length by omega)
  unfold qtoken
  dsimp only
  generalize qtokenLoop buf.length buf off off false = res at *
  have hInside : res.2.1 < off + r.length := by
    rcases Nat.lt_or_eq_of_le (show res.2.1 ≤ off + r.length by omega) with hLt | hEq
    · exact hLt
    · exact absurd (fun c hc => ⟨(hEnd hEq c hc).2 rfl, (hEnd hEq c hc).1⟩) hNot
  -- the byte there is still the one of the string
  have hByte : res.1[res.2.1]? = r[res.2.1 - off]? := by
    rw [hSame _ (le_refl _), ← h.bytes _ (by omega), Nat.add_sub_cancel' hS]
  have hSome : r[res.2.1 - off]? = some r[res.2.1 - off] := List.getElem?_eq_getElem (by omega)
  have hNul : res.1.getD res.2.1 0 ≠ 0 := by
    rw [List.getD_eq_getElem?_getD, hByte, hSome, Option.getD_some]
    exact fun h0 => h.clean (h0 ▸ List.getElem_mem _)
  rw [if_pos hNul]
  refine ⟨res.2.1, hS, hInside, ?_, List.getElem?_set_self ?_⟩
  · change res.2.1 < if res.2.2 = res.2.1 then res.2.2 + 1 else res.2.2
    split <;> omega
  · exact (List.getElem?_eq_some_iff.mp (hByte.trans hSome)).1

theorem skipSep_ge (fuel : Nat) (buf : List Byte) (s : Nat) : s ≤ skipSep fuel buf s := by
  induction fuel generalizing s with
  | zero => exact le_refl _
  | succ fuel ih =>
    rw [skipSep]
    split
    · exact (Nat.le_succ s).trans (ih (s + 1))
    · exact le_refl _

theorem tokenizeLoop_before (room : Nat) (buf : List Byte) (s : Nat) (args : List Nat) :
    ∀ i < s, (tokenizeLoop room buf s args).1[i]? = buf[i]? := by
  induction room generalizing buf s args with
  | zero => exact fun _ _ => rfl
  | succ room ih =>
    intro i hi
    have hSkip := skipSep_ge buf.length buf s
    rw [tokenizeLoop]
    dsimp only
    split
    · rfl
    · obtain ⟨hSame, hNext⟩ := qtoken_before buf (skipSep buf.length buf s)
      rw [ih _ _ _ i (by omega), hSame i (by omega)]

/-- A string of other tokens gets a NUL before its end. -/
theorem tokenize_cuts {room : Nat} (h : StrAt buf off s) (hNot : ¬ Whole s) :
    ∃ i, off ≤ i ∧ i < off + s.length ∧ (tokenize buf off (room + 1)).1[i]? = some 0 := by
  have hToken := token_str h
  have hSkip := skipSep_str h
  have hLength : (s.takeWhile (· ∈ qsep)).length + (s.dropWhile (· ∈ qsep)).length = s.length := by
    rw [← List.length_append, List.takeWhile_append_dropWhile]
  unfold Whole at hNot
  rw [tokenize, tokenizeLoop, hSkip]
  generalize (s.takeWhile (· ∈ qsep)).length = n at *
  generalize s.dropWhile (· ∈ qsep) = r at *
  cases r with
  | nil => exact absurd (by simp) hNot
  | cons c r =>
    obtain ⟨i, hFrom, hTo, hNext, hNul⟩ := qtoken_cut hToken hNot
    have hGo : c ≠ 0 := fun h0 => hToken.clean (by simp [h0])
    refine ⟨i, by omega, by omega, ?_⟩
    rw [hToken.getD_cons, if_neg hGo]
    -- the later tokens are cut behind it
    rw [tokenizeLoop_before _ _ _ _ i hNext, hNul]

end

/-! ## What is read -/

section

variable {buf buf' : List Byte} {lo hi : Nat}

/-- Two loops of `qtoken` over the same text do the same; their pointers stay in it. -/
theorem qtokenLoop_congr {fuel s t : Nat} {q : Bool} (h : SameText buf buf' lo hi) (hLow : lo ≤ s)
    (hOrder : s ≤ t) (hHigh : t ≤ hi) :
    (qtokenLoop fuel buf s t q).2 = (qtokenLoop fuel buf' s t q).2 ∧
      SameText (qtokenLoop fuel buf s t q).1 (qtokenLoop fuel buf' s t q).1 lo hi ∧
      lo ≤ (qtokenLoop fuel buf s t q).2.1 ∧
      (qtokenLoop fuel buf s t q).2.1 ≤ (qtokenLoop fuel buf s t q).2.2 ∧
      (qtokenLoop fuel buf s t q).2.2 ≤ hi := by
  induction fuel generalizing buf buf' s t q with
  | zero => exact ⟨rfl, h, hLow, hOrder, hHigh⟩
  | succ fuel ih =>
    have hByte := h.getD (Nat.le_trans hLow hOrder) hHigh
    rw [qtokenLoop, qtokenLoop]
    simp only [hByte]
    split
    · exact ⟨rfl, h, hLow, hOrder, hHigh⟩
    · next hGo =>
      -- the NUL is not read over
      have hNext : t < hi := h.lt_of_ne hHigh (not_or.mp hGo).1
      have hAfter := h.getD (Nat.le_trans hLow (Nat.le_succ_of_le hOrder)) hNext
      simp only [hAfter]
      split
      · exact ih (h.set (by omega) _) (by omega) (by omega) (by omega)
      · split
        · exact ih h hLow (by omega) (by omega)
        · split
          · exact ih h hLow (by omega) (by omega)
          · next hDouble =>
            have hQuote : buf.getD (t + 1) 0 ≠ 0 := by
              rw [not_ne_iff.mp hDouble]
              decide
            have hLast : t + 1 < hi := h.lt_of_ne hNext hQuote
            exact ih (h.set (by omega) _) (by omega) (by omega) (by omega)

theorem qtoken_congr {s : Nat} (h : SameText buf buf' lo hi) (hLow : lo ≤ s) (hHigh : s ≤ hi) :
    (qtoken buf s).2 = (qtoken buf' s).2 ∧ SameText (qtoken buf s).1 (qtoken buf' s).1 lo hi ∧
      lo ≤ (qtoken buf s).2 ∧ (qtoken buf s).2 ≤ hi := by
  obtain ⟨hPointers, hText, hFrom, hOrder, hTo⟩ :=
    qtokenLoop_congr (q := false) h hLow (le_refl s) hHigh
  unfold qtoken
  dsimp only
  rw [← h.length, ← hPointers]
  have hByte := hText.getD hFrom (Nat.le_trans hOrder hTo)
  simp only [hByte]
  -- the separator behind the token is cut unless it is the end of the text
  split
  · next hGo =>
    have hNext := hText.lt_of_ne (Nat.le_trans hOrder hTo) hGo
    refine ⟨rfl, hText.set hNext 0, ?_, ?_⟩
    all_goals dsimp only; split <;> omega
  · exact ⟨rfl, hText, by omega, by omega⟩

theorem skipSep_congr {fuel s : Nat} (h : SameText buf buf' lo hi) (hLow : lo ≤ s) (hHigh : s ≤ hi) :
    skipSep fuel buf s = skipSep fuel buf' s ∧ skipSep fuel buf s ≤ hi := by
  induction fuel generalizing s with
  | zero => exact ⟨rfl, hHigh⟩
  | succ fuel ih =>
    rw [skipSep, skipSep, h.getD hLow hHigh]
    split
    · next hSep =>
      have hByte : buf.getD s 0 ≠ 0 := fun h0 => by
        rw [h0] at hSep
        revert hSep
        decide
      exact ih (by omega) (h.lt_of_ne hHigh hByte)
    · exact ⟨rfl, hHigh⟩

theorem tokenizeLoop_congr {room s : Nat} {args : List Nat} (h : SameText buf buf' lo hi)
    (hLow : lo ≤ s) (hHigh : s ≤ hi) (hArgs : ∀ p ∈ args, lo ≤ p ∧ p ≤ hi) :
    (tokenizeLoop room buf s args).2 = (tokenizeLoop room buf' s args).2 ∧
      SameText (tokenizeLoop room buf s args).1 (tokenizeLoop room buf' s args).1 lo hi ∧
      ∀ p ∈ (tokenizeLoop room buf s args).2, lo ≤ p ∧ p ≤ hi := by
  induction room generalizing buf buf' s args with
  | zero => exact ⟨rfl, h, hArgs⟩
  | succ room ih =>
    obtain ⟨hSkip, hTo⟩ : skipSep buf.length buf s = skipSep buf.length buf' s ∧
        skipSep buf.length buf s ≤ hi := skipSep_congr h hLow hHigh
    have hFrom := Nat.le_trans hLow (skipSep_ge buf.length buf s)
    rw [tokenizeLoop, tokenizeLoop, ← h.length, ← hSkip]
    dsimp only
    rw [h.getD hFrom hTo]
    split
    · exact ⟨rfl, h, hArgs⟩
    · -- both buffers have the same text behind the token
      obtain ⟨hNext, hText, hNextFrom, hNextTo⟩ := qtoken_congr h hFrom hTo
      rw [← hNext]
      refine ih hText hNextFrom hNextTo fun p hp => ?_
      rcases List.mem_append.mp hp with hp | hp
      · exact hArgs p hp
      · rw [List.mem_singleton.mp hp]
        exact ⟨hFrom, hTo⟩

/-- Buffers with the same text at `s` give the same tokens, and the same text again. -/
theorem tokenize_congr {s maxargs : Nat} (h : SameText buf buf' lo hi) (hLow : lo ≤ s)
    (hHigh : s ≤ hi) :
    (tokenize buf s maxargs).2 = (tokenize buf' s maxargs).2 ∧
      SameText (tokenize buf s maxargs).1 (tokenize buf' s maxargs).1 lo hi ∧
      ∀ p ∈ (tokenize buf s maxargs).2, lo ≤ p ∧ p ≤ hi :=
  tokenizeLoop_congr h hLow hHigh (by simp)

end

end Machine
