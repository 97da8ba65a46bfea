import Glendum.Console.Keys

/-!
# Glendum — compose sequences

After a compose key, `kbdputsc` collects the ordinary runes that keys are decoded to, until
`latin1` knows what they mean or that they mean nothing. The five places of `kc` are not
guarded: it is `latin1` that must come to a decision with five runes. Scan codes come from
the keyboard and from whoever writes to `kbin`, and `kbdputmap` may change the tables
between any two of them.

* `kbdputsc_cases` — what a scan code does to the sequence;
* `KbSource.Composes` — the runes that are collected are those since the compose key;
* `compose_exact` — so it is in every run, and no rune is stored outside `kc`.
-/

namespace Glendum

open Machine Trace

/-! ## Scan codes and tables -/

/-- A change of a table; `none` is `error(Ebadarg)`. -/
def kbdputmap (tabs : Kbtabs) (m scanc : BitVec 16) (r : Rune) : Option Kbtabs :=
  if h : scanc.toNat < Nscan then
    match m.toNat with
    | 0 => some { tabs with kbtab := tabs.kbtab.set scanc.toNat r h }
    | 1 => some { tabs with kbtabshift := tabs.kbtabshift.set scanc.toNat r h }
    | 2 => some { tabs with kbtabesc1 := tabs.kbtabesc1.set scanc.toNat r h }
    | 3 => some { tabs with kbtabaltgr := tabs.kbtabaltgr.set scanc.toNat r h }
    | 4 => some { tabs with kbtabctrl := tabs.kbtabctrl.set scanc.toNat r h }
    | _ => none
  else none

/-- The rune that a key press is decoded to. -/
def Kbscan.press (k : Kbscan) (tabs : Kbtabs) (c : Byte) : Option Rune :=
  if k.Pressed c then some (k.decode tabs c) else none

/-- No bit of `Spec|KF` is set. -/
def Ordinary (r : Rune) : Prop := r &&& (Spec ||| KF) = 0

instance (r : Rune) : Decidable (Ordinary r) := inferInstanceAs (Decidable (_ = _))

/-- A source of scan codes, and the ordinary runes decoded from its key presses since its
last compose key. -/
structure KbSource where
  k     : Kbscan := {}
  since : List Rune := []

/-- The runes since the last compose key, with the next scan code. -/
def KbSource.sinceNext (src : KbSource) (tabs : Kbtabs) (c : Byte) : List Rune :=
  match src.k.press tabs c with
  | none => src.since
  | some r =>
    if Ordinary r then src.since ++ [r]
    -- a compose key is `Latin` without `Ctrl`
    else if r = Latin ∧ src.k.ctl = false then []
    else src.since

/-- The two sources, `kbscans`, and what they share. -/
structure Scanner where
  tabs     : Kbtabs
  kernel   : KbSource := {}
  external : KbSource := {}
  g        : KbGlobals := {}

def Scanner.source (s : Scanner) (external : Bool) : KbSource :=
  if external then s.external else s.kernel

inductive ScanOp
  /-- a scan code from the keyboard, or a byte that was written to `kbin` -/
  | key (external : Bool) (c : Byte)
  | kbdputmap (m scanc : BitVec 16) (r : Rune)

/-- A call of `kbdputmap` that fails changes nothing. -/
def Scanner.step (latin1 : List Rune → Int) (s : Scanner) : ScanOp → Option Scanner
  | .key external c =>
    let src := s.source external
    (kbdputsc s.tabs latin1 src.k s.g c).map fun r =>
      let src : KbSource := ⟨r.1, src.sinceNext s.tabs c⟩
      { s with
        kernel := if external then s.kernel else src
        external := if external then src else s.external
        g := r.2.1 }
  | .kbdputmap m scanc r => some { s with tabs := (kbdputmap s.tabs m scanc r).getD s.tabs }

/-! ## The sequence -/

/-- While runes are collected they are those since the compose key, and there is room for
one more; otherwise none are. -/
structure KbSource.Composes (src : KbSource) : Prop where
  room      : src.k.nk ≤ 4
  idle      : src.k.collecting = false → src.k.nk = 0
  collected : src.k.collecting = true → src.k.collected = src.since

/-- The next scan code stays inside the tables, and when its rune is to be stored there is
room for it in `kc`. Then either more runes are needed, or the sequence is over. -/
structure KbSource.Next (latin1 : List Rune → Int) (tabs : Kbtabs) (g : KbGlobals) (src : KbSource)
    (c : Byte) : Prop where
  index  : (scanIndex c).val = (c &&& 0x7f).toNat ∧ (c &&& 0x7f).toNat < Nscan
  passes : ∃ k' g' rs, kbdputsc tabs latin1 src.k g c = some (k', g', rs)
  stores : ∀ r, src.k.press tabs c = some r → Ordinary r → src.k.collecting = true →
    src.k.nk ≤ 4 ∧ ∃ k' g' rs, kbdputsc tabs latin1 src.k g c = some (k', g', rs) ∧
      if latin1 (src.since ++ [r]) < -1 then
        k'.collecting = true ∧ k'.nk = src.k.nk + 1 ∧ k'.collected = src.since ++ [r] ∧ rs = []
      else
        k'.collecting = false ∧ k'.nk = 0 ∧
          rs = if latin1 (src.since ++ [r]) ≠ -1 then [BitVec.ofInt 16 (latin1 (src.since ++ [r]))]
            else src.since ++ [r]

/-- The part of the state that belongs to the sequence is the same. -/
structure Kbscan.SameSeq (k k' : Kbscan) : Prop where
  collecting : k'.collecting = k.collecting
  nk         : k'.nk = k.nk
  kc         : k'.kc = k.kc

section

variable {latin1 : List Rune → Int} {tabs : Kbtabs} {k k' : Kbscan} {g g' : KbGlobals} {r : Rune}
  {rs : List Rune} {c : Byte} {src : KbSource}

theorem Kbscan.SameSeq.collected (h : k.SameSeq k') : k'.collected = k.collected := by
  rw [Kbscan.collected, Kbscan.collected, h.kc, h.nk]

theorem Kbscan.SameSeq.trans {k'' : Kbscan} (h : k.SameSeq k') (h' : k'.SameSeq k'') : k.SameSeq k'' :=
  ⟨h'.collecting.trans h.collecting, h'.nk.trans h.nk, h'.kc.trans h.kc⟩

theorem keyup_sameSeq (k : Kbscan) (g : KbGlobals) (r : Rune) : k.SameSeq (k.keyup g r).1 := by
  unfold Kbscan.keyup
  split
  · exact ⟨rfl, rfl, rfl⟩
  split
  · exact ⟨rfl, rfl, rfl⟩
  split
  · exact ⟨rfl, rfl, rfl⟩
  split
  · exact ⟨rfl, rfl, rfl⟩
  split
  · exact ⟨rfl, rfl, rfl⟩
  · exact ⟨rfl, rfl, rfl⟩

/-- Only a compose key begins a sequence. -/
theorem special_sameSeq (g : KbGlobals) (h : ¬ (r = Latin ∧ k.ctl = false)) :
    k.SameSeq (k.special g r).1 := by
  unfold Kbscan.special
  split
  · exact ⟨rfl, rfl, rfl⟩
  split
  · exact ⟨rfl, rfl, rfl⟩
  split
  · exact ⟨rfl, rfl, rfl⟩
  split
  -- the fourth key of the source is the compose key
  · rename_i hLatin
    split
    · exact ⟨rfl, rfl, rfl⟩
    · rename_i hCtl
      exact absurd ⟨hLatin, Bool.eq_false_of_not_eq_true hCtl⟩ h
  split
  · exact ⟨rfl, rfl, rfl⟩
  split
  · exact ⟨rfl, rfl, rfl⟩
  split
  · exact ⟨rfl, rfl, rfl⟩
  split
  · exact ⟨rfl, rfl, rfl⟩
  split
  · exact ⟨rfl, rfl, rfl⟩
  · exact ⟨rfl, rfl, rfl⟩

/-- A compose key, `Latin` without `Ctrl`. -/
theorem special_latin (h : k.ctl = false) : k.special g Latin =
    ({ k with alt := true, collecting := true, nk := 0 }, g, []) := by
  have hLatin : k.special g Latin = if k.ctl then ({ k with alt := true }, g, [])
      else ({ k with alt := true, collecting := true, nk := 0 }, g, []) := rfl
  rw [hLatin, h]
  rfl

/-- What a scan code does to the sequence: nothing, when it is no press; otherwise what its
rune does. -/
theorem kbdputsc_cases (tabs : Kbtabs) (latin1 : List Rune → Int) (k : Kbscan) (g : KbGlobals)
    (c : Byte) :
    (k.press tabs c = none ∧
      ∃ k' g', kbdputsc tabs latin1 k g c = some (k', g', []) ∧ k.SameSeq k') ∨
    ∃ r, k.press tabs c = some r ∧
      (Ordinary r ∧ kbdputsc tabs latin1 k g c = Kbscan.normal latin1 { k with esc1 := false } g r ∨
      ¬ Ordinary r ∧
        kbdputsc tabs latin1 k g c = some (Kbscan.special { k with esc1 := false } g r)) := by
  unfold kbdputsc Kbscan.press
  -- the two prefixes, and the codes behind 0xe1
  by_cases hE0 : c = 0xe0
  · rw [if_pos hE0, if_neg fun h => h.1 hE0]
    exact Or.inl ⟨rfl, _, _, rfl, rfl, rfl, rfl⟩
  by_cases hE1 : c = 0xe1
  · rw [if_neg hE0, if_pos hE1, if_neg fun h => h.2.1 hE1]
    exact Or.inl ⟨rfl, _, _, rfl, rfl, rfl, rfl⟩
  by_cases hEsc : k.esc1 = false ∧ k.esc2 ≠ 0
  · rw [if_neg hE0, if_neg hE1, if_pos hEsc, if_neg fun h => h.2.2.1 hEsc]
    exact Or.inl ⟨rfl, _, _, rfl, rfl, rfl, rfl⟩
  rw [if_neg hE0, if_neg hE1, if_neg hEsc]
  by_cases hUp : c &&& 0x80 = 0
  · rw [if_pos ⟨hE0, hE1, hEsc, hUp⟩]
    refine Or.inr ⟨_, rfl, ?_⟩
    simp only [hUp, ne_eq, not_true, if_false]
    by_cases hNormal : Ordinary (k.decode tabs c)
    · exact Or.inl ⟨hNormal, if_pos hNormal⟩
    · exact Or.inr ⟨hNormal, if_neg hNormal⟩
  · -- a key that goes up
    rw [if_neg fun h => hUp h.2.2.2]
    have hFirst : k.SameSeq { k with esc1 := false } := ⟨rfl, rfl, rfl⟩
    exact Or.inl ⟨rfl, _, _, if_pos hUp, hFirst.trans (keyup_sameSeq _ _ _)⟩

/-- An ordinary rune in a sequence that has room for it. -/
theorem normal_collecting (hCollect : k.collecting = true) (hRoom : k.nk < NKC) (g : KbGlobals)
    (r : Rune) : ∃ k' g' rs, k.normal latin1 g r = some (k', g', rs) ∧
      if latin1 (k.collected ++ [r]) < -1 then
        k'.collecting = true ∧ k'.nk = k.nk + 1 ∧ k'.collected = k.collected ++ [r] ∧ rs = []
      else
        k'.collecting = false ∧ k'.nk = 0 ∧
          rs = if latin1 (k.collected ++ [r]) ≠ -1 then [BitVec.ofInt 16 (latin1 (k.collected ++ [r]))]
            else k.collected ++ [r] := by
  -- `latin1` is asked about the runes with the new one among them
  have hStore := Kbscan.collected_store hRoom r
  unfold Kbscan.normal
  rw [if_pos hCollect, dif_pos hRoom]
  dsimp only
  rw [hStore]
  by_cases hMore : latin1 (k.collected ++ [r]) < -1
  · simp only [if_pos hMore]
    exact ⟨_, _, _, rfl, hCollect, rfl, hStore, rfl⟩
  · simp only [if_neg hMore]
    exact ⟨_, _, _, rfl, rfl, rfl, rfl⟩

theorem normal_idle (latin1 : List Rune → Int) (hIdle : k.collecting = false) (g : KbGlobals) (r : Rune) :
    ∃ g', k.normal latin1 g r = some (k, g', [r]) := by
  unfold Kbscan.normal
  rw [if_neg (by rw [hIdle]; decide)]
  exact ⟨_, rfl⟩

theorem length_collected (h : k.nk ≤ NKC) : k.collected.length = k.nk := by
  rw [Kbscan.collected, List.length_take, Vector.length_toList]
  exact Nat.min_eq_left h

/-- The next rune of a sequence. -/
theorem KbSource.Composes.stores (latin1 : List Rune → Int) (h : src.Composes)
    (hPress : src.k.press tabs c = some r) (hOrd : Ordinary r) (hCollect : src.k.collecting = true)
    (g : KbGlobals) :
    ∃ k' g' rs, kbdputsc tabs latin1 src.k g c = some (k', g', rs) ∧
      if latin1 (src.since ++ [r]) < -1 then
        k'.collecting = true ∧ k'.nk = src.k.nk + 1 ∧ k'.collected = src.since ++ [r] ∧ rs = []
      else
        k'.collecting = false ∧ k'.nk = 0 ∧
          rs = if latin1 (src.since ++ [r]) ≠ -1 then [BitVec.ofInt 16 (latin1 (src.since ++ [r]))]
            else src.since ++ [r] := by
  have hRoom : src.k.nk < NKC := Nat.lt_succ_of_le h.room
  -- of the cases only that of an ordinary rune is left
  rcases kbdputsc_cases tabs latin1 src.k g c with ⟨hNone, -⟩ | ⟨r', hSome, hPut⟩
  · cases hNone.symm.trans hPress
  · obtain rfl : r' = r := Option.some.inj (hSome.symm.trans hPress)
    rcases hPut with ⟨-, hPut⟩ | ⟨hNot, -⟩
    · rw [hPut, ← h.collected hCollect]
      exact normal_collecting (k := { src.k with esc1 := false }) hCollect hRoom g r'
    · exact absurd hOrd hNot

/-- Another state with the same sequence. -/
theorem KbSource.Composes.sameSeq (h : src.Composes) (hSame : src.k.SameSeq k') :
    KbSource.Composes ⟨k', src.since⟩ := by
  refine ⟨hSame.nk ▸ h.room, fun hIdle => ?_, fun hCollect => ?_⟩
  · exact hSame.nk.trans (h.idle (hSame.collecting.symm.trans hIdle))
  · exact hSame.collected.trans (h.collected (hSame.collecting.symm.trans hCollect))

/-- The rune that was stored belongs to the sequence, or has ended it. -/
theorem KbSource.Composes.collects (hFive : ∀ rs, rs.length = NKC → ¬ latin1 rs < -1) (h : src.Composes)
    (hPress : src.k.press tabs c = some r) (hOrd : Ordinary r) (hCollect : src.k.collecting = true)
    (g : KbGlobals) :
    ∃ k' g' rs, kbdputsc tabs latin1 src.k g c = some (k', g', rs) ∧
      KbSource.Composes ⟨k', src.since ++ [r]⟩ := by
  obtain ⟨k', g', rs, hStore, hNext⟩ := h.stores latin1 hPress hOrd hCollect g
  refine ⟨k', g', rs, hStore, ?_⟩
  split at hNext
  · rename_i hMore
    obtain ⟨hOn, hNk, hCollected, -⟩ := hNext
    -- with the fifth rune `latin1` would have come to a decision
    have hShort : k'.nk ≠ NKC := by
      intro hFull
      refine hFive (src.since ++ [r]) ?_ hMore
      rw [← hCollected, length_collected (Nat.le_of_eq hFull), hFull]
    have hRoom := h.room
    have hLast : k'.nk ≤ 4 := by
      rw [NKC] at hShort
      omega
    exact ⟨hLast, fun hOff => absurd (hOff.symm.trans hOn) Bool.false_ne_true, fun _ => hCollected⟩
  · -- `latin1` has come to a decision
    obtain ⟨hOff, hNk, -⟩ := hNext
    refine ⟨by rw [hNk]; exact Nat.zero_le _, fun _ => hNk, fun hOn => ?_⟩
    exact absurd (hOff.symm.trans hOn) Bool.false_ne_true

/-- A scan code passes, and leaves the sequence as it should be. -/
theorem KbSource.Composes.key (hFive : ∀ rs, rs.length = NKC → ¬ latin1 rs < -1) (h : src.Composes)
    (tabs : Kbtabs) (g : KbGlobals) (c : Byte) :
    ∃ k' g' rs, kbdputsc tabs latin1 src.k g c = some (k', g', rs) ∧
      KbSource.Composes ⟨k', src.sinceNext tabs c⟩ := by
  rcases kbdputsc_cases tabs latin1 src.k g c with ⟨hNone, k', g', hPut, hSame⟩ | ⟨r, hPress, hPut⟩
  · -- no key press
    refine ⟨k', g', [], hPut, ?_⟩
    rw [KbSource.sinceNext, hNone]
    exact h.sameSeq hSame
  have hSince : src.sinceNext tabs c = if Ordinary r then src.since ++ [r]
      else if r = Latin ∧ src.k.ctl = false then [] else src.since := by
    rw [KbSource.sinceNext, hPress]
  rw [hSince]
  rcases hPut with ⟨hOrd, hPut⟩ | ⟨hNot, hPut⟩
  · rw [if_pos hOrd]
    cases hCollect : src.k.collecting with
    | false =>
      -- the rune goes to the ring, and `nk` stays 0
      obtain ⟨g', hNormal⟩ := normal_idle latin1 (k := { src.k with esc1 := false }) hCollect g r
      refine ⟨_, g', [r], hPut.trans hNormal, h.room, fun _ => h.idle hCollect, fun hOn => ?_⟩
      exact absurd (hCollect.symm.trans hOn) Bool.false_ne_true
    | true => exact h.collects hFive hPress hOrd hCollect g
  · rw [if_neg hNot]
    obtain ⟨k1, hK1⟩ : ∃ k1 : Kbscan, { src.k with esc1 := false } = k1 := ⟨_, rfl⟩
    rw [hK1] at hPut
    refine ⟨(k1.special g r).1, (k1.special g r).2.1, (k1.special g r).2.2, hPut, ?_⟩
    by_cases hCompose : r = Latin ∧ src.k.ctl = false
    · -- a new sequence
      rw [if_pos hCompose]
      obtain ⟨rfl, hCtl⟩ := hCompose
      rw [special_latin (hK1 ▸ hCtl)]
      exact ⟨Nat.zero_le _, fun hOff => absurd hOff.symm Bool.false_ne_true, fun _ => rfl⟩
    · -- the other special keys leave the sequence alone
      rw [if_neg hCompose]
      have hFirst : src.k.SameSeq k1 := hK1 ▸ ⟨rfl, rfl, rfl⟩
      exact h.sameSeq (hFirst.trans (special_sameSeq g (hK1 ▸ hCompose)))

theorem KbSource.Composes.next (hFive : ∀ rs, rs.length = NKC → ¬ latin1 rs < -1) (h : src.Composes)
    (tabs : Kbtabs) (g : KbGlobals) (c : Byte) : src.Next latin1 tabs g c where
  index := ⟨rfl, (scanIndex c).isLt⟩
  passes := by
    obtain ⟨k', g', rs, hPut, -⟩ := h.key hFive tabs g c
    exact ⟨k', g', rs, hPut⟩
  stores r hPress hOrd hCollect := ⟨h.room, h.stores latin1 hPress hOrd hCollect g⟩

end

/-! ## Runs -/

/-- Both sources. -/
structure Scanner.Composes (s : Scanner) : Prop where
  kernel   : s.kernel.Composes
  external : s.external.Composes

section

variable {latin1 : List Rune → Int} {s : Scanner}

theorem Scanner.Composes.source (h : s.Composes) (external : Bool) :
    (s.source external).Composes := by
  cases external with
  | false => exact h.kernel
  | true => exact h.external

theorem Scanner.Composes.step (hFive : ∀ rs, rs.length = NKC → ¬ latin1 rs < -1) (h : s.Composes)
    (o : ScanOp) : ∃ s', s.step latin1 o = some s' ∧ s'.Composes := by
  cases o with
  | key external c =>
    obtain ⟨k', g', rs, hPut, hNext⟩ := (h.source external).key hFive s.tabs s.g c
    refine ⟨_, by rw [Scanner.step, hPut, Option.map_some], ?_⟩
    cases external with
    | false => exact ⟨hNext, h.external⟩
    | true => exact ⟨h.kernel, hNext⟩
  | kbdputmap m scanc r => exact ⟨_, rfl, h.kernel, h.external⟩

theorem scanner_start (tabs : Kbtabs) : Scanner.Composes { tabs := tabs } where
  kernel := ⟨Nat.zero_le _, fun _ => rfl, fun _ => rfl⟩
  external := ⟨Nat.zero_le _, fun _ => rfl, fun _ => rfl⟩

end

/-- Whatever the tables hold and whatever is sent: when `latin1` comes to a decision with five
runes, every run goes on, both sources collect the runes since their compose key and have
room for one more, and a sequence that is over leaves nothing behind. -/
theorem compose_exact {latin1 : List Rune → Int} (hFive : ∀ rs, rs.length = NKC → ¬ latin1 rs < -1)
    (tabs : Kbtabs) (os : List ScanOp) :
    ∃ s, run (Scanner.step latin1) { tabs := tabs } os = some s ∧ s.Composes ∧
      ∀ external c, (s.source external).Next latin1 s.tabs s.g c := by
  obtain ⟨s, hRun, h⟩ := run_defined (fun _ o hInv => Scanner.Composes.step hFive hInv o)
    (scanner_start tabs) os
  exact ⟨s, hRun, h, fun external c => (h.source external).next hFive s.tabs s.g c⟩

/-- An apostrophe and an `e` after the compose key, the `e` on a key of the user's own. -/
theorem compose_exact_acute : ∃ s,
    run (Scanner.step fun rs => if rs = [0x27] then -2 else if rs = [0x27, rune 'e'] then 0xe9 else -1)
      { tabs := defaultTabs } [.kbdputmap 0 0x70 (rune 'e'), .key true 0x38, .key true 0xb8,
        .key true 0x28, .key true 0x70] = some s ∧ s.Composes := by
  have hFive : ∀ rs : List Rune, rs.length = NKC →
      ¬ (if rs = [0x27] then -2 else if rs = [0x27, rune 'e'] then 0xe9 else -1) < (-1 : Int) := by
    intro rs hLen
    rw [if_neg (by rintro rfl; cases hLen), if_neg (by rintro rfl; cases hLen)]
    decide
  obtain ⟨s, hRun, hComposes, -⟩ := compose_exact hFive defaultTabs [.kbdputmap 0 0x70 (rune 'e'),
    .key true 0x38, .key true 0xb8, .key true 0x28, .key true 0x70]
  exact ⟨s, hRun, hComposes⟩

end Glendum
